import SnakeOs.UBoot.Spare
import SnakeOs.Lib.Ring

namespace SnakeOs.UBoot
open Lib

/-- A frame and its length, as the hardware reports them. -/
abbrev Frame := Nat × Nat

def arriving : Act → List Frame
  | .fill frame len => [(frame, len % 65536)]
  | _ => []

/-- `NetReceive` is called as the steps leave `.swap`, with the packet taken from the ring. -/
def passed (s t : Nic) : List Frame :=
  match s.rx, t.rx with
  | some ⟨.swap p, _, _⟩, some ⟨.receive _, _, _⟩ => [(t.dev.frame p, t.dev.length p)]
  | _, _ => []

/-- The driver with the frames that came in and those passed to `NetReceive`, oldest first. -/
structure Log where
  nic : Nic := start
  arrived : List Frame := []
  received : List Frame := []

def Log.step (l : Log) (a : Act) : Option Log :=
  (UBoot.step l.nic a).map fun t => ⟨t, l.arrived ++ arriving a, l.received ++ passed l.nic t⟩

/-- The frame of a receive descriptor. -/
def Dev.frameAt (d : Dev) (i : Nat) : Frame := (d.frame (d.rxDesc i).dataPtr, (d.rxDesc i).length)

/-- The descriptor whose packet is the next to be taken; `cur_rx_desc_idx` follows only after
`NetReceive`. -/
def Nic.nextRx (s : Nic) : Nat :=
  if s.receiving then nextIdx maxRfdNum s.dev.curRx else s.dev.curRx

theorem nextIdx_eq {N i : Nat} (h : i < N) : nextIdx N i = (i + 1) % N := by
  unfold nextIdx
  split
  · rename_i hlast
    rw [hlast, Nat.sub_add_cancel (by omega), Nat.mod_self]
  · exact (Nat.mod_eq_of_lt (by omega)).symm

theorem Rings.nextRx_lt {s : Nic} (h : Rings s.dev) : s.nextRx < maxRfdNum := by
  unfold Nic.nextRx
  split
  · exact nextIdx_lt h.curRx
  · exact h.curRx

/-- `n` descriptors from the next one on hold frames, the hardware has the others. -/
structure Queued (s : Nic) (n : Nat) : Prop where
  le : n ≤ maxRfdNum
  rxsd : s.dev.rxsd = (s.nextRx + n) % maxRfdNum
  full : ∀ k < n, (s.dev.rxDesc ((s.nextRx + k) % maxRfdNum)).cpuOwn = true
  empty : ∀ k, n ≤ k → k < maxRfdNum → (s.dev.rxDesc ((s.nextRx + k) % maxRfdNum)).cpuOwn = false
  taken : ∀ c p, s.rx = some c → c.pc = .swap p →
    0 < n ∧ s.dev.frameAt s.dev.curRx = (s.dev.frame p, s.dev.length p)

/-- The frames that are not yet passed on stand in the descriptors, and the packet that
`NetReceive` works on holds the last one that was. -/
structure InOrder (l : Log) (n : Nat) : Prop where
  arrived : l.arrived = l.received ++ (window maxRfdNum l.nic.nextRx n).map l.nic.dev.frameAt
  kept : ∀ c p, l.nic.rx = some c → c.pc = .receive p →
    l.received.getLast? = some (l.nic.dev.frame p, l.nic.dev.length p)

section
variable {s t : Nic} {free queue : List Nat}

theorem rxPkts_eq (h : RxSlots s.dev) :
    s.dev.rxPkts = (List.range maxRfdNum).map fun i => (s.dev.rxDesc i).dataPtr := by
  rw [Dev.rxPkts, ← List.filterMap_eq_map]
  apply List.filterMap_congr
  exact fun i hi => h i (List.mem_range.mp hi)

theorem dataPtr_mem (h : RxSlots s.dev) {i : Nat} (hi : i < maxRfdNum) :
    (s.dev.rxDesc i).dataPtr ∈ s.dev.rxPkts := by
  rw [rxPkts_eq h]
  exact List.mem_map_of_mem (List.mem_range.mpr hi)

theorem Inv.rxPkts_nodup (h : Inv s free queue) :
    (s.held ++ (s.dev.txPkts ++ s.dev.rxPkts)).Nodup := by
  have hd := h.lists.nodup
  rw [List.nodup_append] at hd
  exact (List.nodup_append.mp hd.2.1).2.1

/-- Two descriptors have two packets. -/
theorem Inv.dataPtr_ne (h : Inv s free queue) (hr : RxSlots s.dev) {i j : Nat}
    (hi : i < maxRfdNum) (hj : j < maxRfdNum) (hne : i ≠ j) :
    (s.dev.rxDesc i).dataPtr ≠ (s.dev.rxDesc j).dataPtr := by
  have hd := (List.nodup_append.mp (List.nodup_append.mp h.rxPkts_nodup).2.1).2.1
  rw [rxPkts_eq hr] at hd
  intro he
  apply hne
  exact List.inj_on_of_nodup_map hd (List.mem_range.mpr hi) (List.mem_range.mpr hj) he

/-- The packet in hand is not in the ring. -/
theorem Inv.held_ne (h : Inv s free queue) {p q : Nat} (hp : p ∈ s.held)
    (hq : q ∈ s.dev.rxPkts) : p ≠ q :=
  (List.nodup_append.mp h.rxPkts_nodup).2.2 p hp q (List.mem_append_right _ hq)

/-- A step that leaves reception alone: the packets in the ring and the one in hand keep what
their buffers hold. -/
structure Elsewhere (s t : Nic) : Prop where
  rx : t.rx = s.rx
  desc : t.dev.rxDesc = s.dev.rxDesc
  curRx : t.dev.curRx = s.dev.curRx
  rxsd : t.dev.rxsd = s.dev.rxsd
  frame : ∀ p, p ∈ s.dev.rxPkts ∨ p ∈ s.rx.elim [] (fun c => c.pc.held) →
    t.dev.frame p = s.dev.frame p
  length : ∀ p, p ∈ s.dev.rxPkts ∨ p ∈ s.rx.elim [] (fun c => c.pc.held) →
    t.dev.length p = s.dev.length p

theorem Elsewhere.receiving (h : Elsewhere s t) : t.receiving = s.receiving := by
  unfold Nic.receiving
  rw [h.rx]

theorem Elsewhere.nextRx (h : Elsewhere s t) : t.nextRx = s.nextRx := by
  unfold Nic.nextRx
  rw [h.receiving, h.curRx]

theorem Elsewhere.frameAt (h : Elsewhere s t) (hr : RxSlots s.dev) {i : Nat}
    (hi : i < maxRfdNum) : t.dev.frameAt i = s.dev.frameAt i := by
  unfold Dev.frameAt
  rw [h.desc, h.frame _ (.inl (dataPtr_mem hr hi))]

theorem Inv.taken_mem (h : Inv s free queue) {c : RxCall} {p : Nat} (hc : s.rx = some c)
    (hp : c.pc = .swap p) : p ∈ s.dev.rxPkts := by
  have hok := h.rx c hc
  rw [hp] at hok
  exact List.mem_filterMap.mpr ⟨_, List.mem_range.mpr h.rings.curRx, hok⟩

theorem Queued.elsewhere {n : Nat} (h : Queued s n) (hi : Inv s free queue)
    (hr : RxSlots s.dev) (he : Elsewhere s t) : Queued t n := by
  refine ⟨h.le, ?_, ?_, ?_, fun c p hc hp => ?_⟩
  · rw [he.rxsd, he.nextRx]
    exact h.rxsd
  · rw [he.desc, he.nextRx]
    exact h.full
  · rw [he.desc, he.nextRx]
    exact h.empty
  · rw [he.rx] at hc
    obtain ⟨hn, hframe⟩ := h.taken c p hc hp
    have hmem := hi.taken_mem hc hp
    refine ⟨hn, ?_⟩
    rw [he.curRx, he.frameAt hr hi.rings.curRx, he.frame p (.inl hmem), he.length p (.inl hmem)]
    exact hframe

/-- What stands in a window depends on its descriptors. -/
theorem map_window {N c n : Nat} {f g : Nat → Frame} (hN : 0 < N)
    (h : ∀ k < n, (c + k) % N < N → f ((c + k) % N) = g ((c + k) % N)) :
    (window N c n).map f = (window N c n).map g := by
  apply List.map_congr_left
  intro i hi
  obtain ⟨k, hk, rfl⟩ := mem_window.mp hi
  exact h k hk (Nat.mod_lt _ hN)

theorem InOrder.elsewhere {l : Log} {n : Nat} (h : InOrder l n) (hr : RxSlots l.nic.dev)
    (he : Elsewhere l.nic t) : InOrder ⟨t, l.arrived, l.received⟩ n := by
  refine ⟨?_, fun c p hc hp => ?_⟩
  · rw [he.nextRx, map_window (by decide) fun k _ hlt => he.frameAt hr hlt]
    exact h.arrived
  · rw [he.rx] at hc
    have hheld : p ∈ l.nic.rx.elim [] fun c => c.pc.held := by
      rw [hc, Option.elim_some, hp]
      exact List.mem_singleton_self p
    rw [he.frame p (.inr hheld), he.length p (.inr hheld)]
    exact h.kept c p hc hp

/-- The buffers and the receive side, which a transmission leaves alone. -/
structure SameBuffers (d e : Dev) : Prop where
  rxDesc : e.rxDesc = d.rxDesc := by rfl
  curRx : e.curRx = d.curRx := by rfl
  rxsd : e.rxsd = d.rxsd := by rfl
  frame : e.frame = d.frame := by rfl
  length : e.length = d.length := by rfl

theorem SameBuffers.elsewhere (h : SameBuffers s.dev t.dev) (hrx : t.rx = s.rx) :
    Elsewhere s t where
  rx := hrx
  desc := h.rxDesc
  curRx := h.curRx
  rxsd := h.rxsd
  frame p _ := congrFun h.frame p
  length p _ := congrFun h.length p

theorem allocPkt_sameBuffers (d : Dev) : SameBuffers d (allocPkt d).1 := by
  unfold allocPkt
  cases d.freePktList <;> exact {}

theorem stepTx_sameBuffers (d : Dev) (pc : TxPc) : SameBuffers d (stepTx d pc).1 := by
  cases pc with
  | enqueue p =>
    simp only [stepTx, txPktEnqueue]
    cases d.txPktQTail <;> exact {}
  | dequeue =>
    simp only [stepTx, txPktDequeue]
    cases d.txPktQHead <;> exact {}
  | test p =>
    simp only [stepTx, freeOld]
    split
    · exact {}
    · cases d.txRingPkt d.curTx <;> exact {}
  | give p => exact {}

/-- The packet that `eth_send` takes is on the free list. -/
theorem ethSend_elsewhere (h : Inv s free queue) (frame len : Nat) :
    Elsewhere s { s with dev := (ethSend s.dev frame len).1, tx := (ethSend s.dev frame len).2 } := by
  have hsame := allocPkt_sameBuffers s.dev
  have hsome (p : Nat) (hp : (allocPkt s.dev).2 = some p) := allocPkt_some h.lists hp
  simp only [ethSend]
  generalize allocPkt s.dev = res at hsame hsome ⊢
  obtain ⟨e, pkt⟩ := res
  cases pkt with
  | none => exact hsame.elsewhere rfl
  | some p =>
    obtain ⟨free', rfl, hl, -, -⟩ := hsome p rfl
    have hd := hl.nodup
    rw [List.nodup_append, List.nodup_append, List.nodup_cons] at hd
    have hnew : p ∉ s.held ++ (s.dev.txPkts ++ s.dev.rxPkts) := hd.2.1.2.1.1
    have hne : ∀ q, q ∈ s.dev.rxPkts ∨ q ∈ s.rx.elim [] (fun c => c.pc.held) → q ≠ p := by
      rintro q (hq | hq) rfl
      · exact hnew (List.mem_append_right _ (List.mem_append_right _ hq))
      · exact hnew (List.mem_append_left _ (List.mem_append_right _ hq))
    refine ⟨rfl, hsame.rxDesc, hsame.curRx, hsame.rxsd, fun q hq => ?_, fun q hq => ?_⟩
    · exact (Function.update_of_ne (hne q hq) _ _).trans (congrFun hsame.frame q)
    · exact (Function.update_of_ne (hne q hq) _ _).trans (congrFun hsame.length q)

theorem complete_sameBuffers {d e : Dev} (h : complete d = some e) : SameBuffers d e := by
  unfold complete at h
  split at h
  · obtain rfl := Option.some.inj h
    exact {}
  · cases h

theorem passed_same {s t : Nic} (h : t.rx = s.rx) : passed s t = [] := by
  unfold passed
  rw [h]
  rcases s.rx with _ | ⟨_ | _ | _, _, _⟩ <;> rfl

/-- The hardware has a descriptor only when the window does not fill the ring. -/
theorem Queued.room {n : Nat} (h : Queued s n)
    (hown : (s.dev.rxDesc s.dev.rxsd).cpuOwn = false) : n < maxRfdNum := by
  rcases Nat.lt_or_ge n maxRfdNum with hn | hn
  · exact hn
  · have hfirst := h.full 0 (Nat.lt_of_lt_of_le (by decide) hn)
    rw [h.rxsd, Nat.le_antisymm h.le hn, Nat.add_mod_right] at hown
    rw [Nat.add_zero, hown] at hfirst
    cases hfirst

theorem receiving_swap {c : RxCall} {p : Nat} (hc : s.rx = some c) (hp : c.pc = .swap p) :
    s.receiving = false := by
  simp only [Nic.receiving, hc, hp]

/-- The hardware has written a frame. -/
structure Filled (s t : Nic) (frame len : Nat) : Prop where
  rx : t.rx = s.rx
  own : (s.dev.rxDesc s.dev.rxsd).cpuOwn = false
  desc : t.dev.rxDesc = Function.update s.dev.rxDesc s.dev.rxsd
    { s.dev.rxDesc s.dev.rxsd with length := len % 65536, cpuOwn := true }
  frame : t.dev.frame =
    Function.update s.dev.frame (s.dev.rxDesc s.dev.rxsd).dataPtr frame
  rxsd : t.dev.rxsd = nextIdx maxRfdNum s.dev.rxsd
  curRx : t.dev.curRx = s.dev.curRx
  length : t.dev.length = s.dev.length

theorem fill_filled {d : Dev} {frame len : Nat} (h : fill s.dev frame len = some d) :
    Filled s { s with dev := d } frame len := by
  unfold fill at h
  split at h
  · rename_i hown
    obtain rfl := Option.some.inj h
    exact ⟨rfl, hown, rfl, rfl, rfl, rfl, rfl⟩
  · cases h

section
variable {frame len n : Nat}

theorem Filled.nextRx (h : Filled s t frame len) : t.nextRx = s.nextRx := by
  unfold Nic.nextRx Nic.receiving
  rw [h.rx, h.curRx]

theorem Filled.desc_ne (h : Filled s t frame len) {i : Nat} (hne : i ≠ s.dev.rxsd) :
    t.dev.rxDesc i = s.dev.rxDesc i := by
  rw [h.desc, Function.update_of_ne hne]

theorem Filled.frameAt_ne (h : Filled s t frame len) (hi : Inv s free queue)
    (hr : RxSlots s.dev) {i : Nat} (hlt : i < maxRfdNum) (hne : i ≠ s.dev.rxsd) :
    t.dev.frameAt i = s.dev.frameAt i := by
  have hptr := hi.dataPtr_ne hr hlt hi.rings.rxsd hne
  rw [Dev.frameAt, h.desc_ne hne, h.frame, Function.update_of_ne hptr]
  rfl

theorem Filled.frameAt_self (h : Filled s t frame len) :
    t.dev.frameAt s.dev.rxsd = (frame, len % 65536) := by
  rw [Dev.frameAt, h.desc, h.frame, Function.update_self, Function.update_self]

/-- The places of the window are not the one that is filled. -/
theorem Queued.place_ne (h : Queued s n) (hn : n < maxRfdNum) {k : Nat} (hk : k < maxRfdNum)
    (hne : k ≠ n) : (s.nextRx + k) % maxRfdNum ≠ s.dev.rxsd := by
  rw [h.rxsd]
  exact fun he => hne (window_place_inj hk hn he)

theorem Filled.queued (h : Filled s t frame len) (hi : Inv s free queue) (hr : RxSlots s.dev)
    (hq : Queued s n) : Queued t (n + 1) := by
  have hn := hq.room h.own
  refine ⟨hn, ?_, fun k hk => ?_, fun k hk hlt => ?_, fun c p hc hp => ?_⟩
  · rw [h.rxsd, h.nextRx, nextIdx_eq hi.rings.rxsd, hq.rxsd, Nat.mod_add_mod, Nat.add_assoc]
  · rw [h.nextRx]
    by_cases he : k = n
    · rw [he, ← hq.rxsd, h.desc, Function.update_self]
    · have hlt : k < n := by omega
      rw [h.desc_ne (hq.place_ne hn (Nat.lt_trans hlt hn) he)]
      exact hq.full k hlt
  · rw [h.nextRx, h.desc_ne (hq.place_ne hn hlt (by omega))]
    exact hq.empty k (by omega) hlt
  · rw [h.rx] at hc
    obtain ⟨hpos, hframe⟩ := hq.taken c p hc hp
    have hcur : s.dev.curRx ≠ s.dev.rxsd := by
      have hne := hq.place_ne hn (by decide) (Nat.ne_of_lt hpos)
      rw [Nic.nextRx, receiving_swap hc hp, Nat.add_zero] at hne
      exact fun he => hne ((Nat.mod_eq_of_lt hi.rings.curRx).trans he)
    have hptr : p ≠ (s.dev.rxDesc s.dev.rxsd).dataPtr := by
      have hok := hi.rx c hc
      rw [hp] at hok
      have hslot := (hr _ hi.rings.curRx).symm.trans hok
      exact Option.some.inj hslot ▸ hi.dataPtr_ne hr hi.rings.curRx hi.rings.rxsd hcur
    refine ⟨Nat.succ_pos n, ?_⟩
    rw [h.curRx, h.frameAt_ne hi hr hi.rings.curRx hcur, h.frame, Function.update_of_ne hptr,
      h.length]
    exact hframe

/-- A frame comes in behind those that wait. -/
theorem Filled.inOrder {l : Log} (h : Filled l.nic t frame len) (hi : Inv l.nic free queue)
    (hr : RxSlots l.nic.dev) (hq : Queued l.nic n) (ho : InOrder l n) :
    InOrder ⟨t, l.arrived ++ [(frame, len % 65536)], l.received⟩ (n + 1) := by
  have hn := hq.room h.own
  refine ⟨?_, fun c p hc hp => ?_⟩
  · have hwaiting : (window maxRfdNum t.nextRx n).map t.dev.frameAt =
        (window maxRfdNum l.nic.nextRx n).map l.nic.dev.frameAt := by
      rw [h.nextRx]
      apply map_window (by decide)
      intro k hk hlt
      exact h.frameAt_ne hi hr hlt (hq.place_ne hn (Nat.lt_trans hk hn) (Nat.ne_of_lt hk))
    have hlast : t.dev.frameAt ((t.nextRx + n) % maxRfdNum) = (frame, len % 65536) := by
      rw [h.nextRx, ← hq.rxsd, h.frameAt_self]
    rw [window_snoc, List.map_append, hwaiting, List.map_singleton, hlast, ← List.append_assoc,
      ← ho.arrived]
  · rw [h.rx] at hc
    have hheld : p ∈ l.nic.held := by
      refine List.mem_append_right _ ?_
      rw [hc, Option.elim_some, hp]
      exact List.mem_singleton_self p
    have hptr := hi.held_ne hheld (dataPtr_mem hr hi.rings.rxsd)
    rw [h.frame, Function.update_of_ne hptr, h.length]
    exact ho.kept c p hc hp

end

/-- Between two packets nothing is in hand. -/
theorem InOrder.rest {l : Log} {n : Nat} (hq : Queued l.nic n) (ho : InOrder l n)
    (hrx : ∀ c ∈ t.rx, c.pc = .look) (hcur : t.dev.curRx = l.nic.nextRx)
    (hsame : t.dev.rxDesc = l.nic.dev.rxDesc ∧ t.dev.frame = l.nic.dev.frame ∧
      t.dev.rxsd = l.nic.dev.rxsd) :
    Queued t n ∧ InOrder ⟨t, l.arrived, l.received⟩ n := by
  have hnext : t.nextRx = l.nic.nextRx := by
    have hrecv : t.receiving = false := by
      cases hc : t.rx with
      | none => simp only [Nic.receiving, hc]
      | some c => simp only [Nic.receiving, hc, hrx c hc]
    rw [Nic.nextRx, hrecv]
    exact hcur
  have hframe : t.dev.frameAt = l.nic.dev.frameAt := by
    funext i
    rw [Dev.frameAt, hsame.1, hsame.2.1]
    rfl
  refine ⟨⟨hq.le, ?_, ?_, ?_, fun c p hc hp => ?_⟩, ⟨?_, fun c p hc hp => ?_⟩⟩
  · rw [hnext, hsame.2.2]
    exact hq.rxsd
  · rw [hnext, hsame.1]
    exact hq.full
  · rw [hnext, hsame.1]
    exact hq.empty
  · cases hp.symm.trans (hrx c hc)
  · rw [hnext, hframe]
    exact ho.arrived
  · cases hp.symm.trans (hrx c hc)

/-- The steps of `star_nic_rx` that look for a frame. -/
theorem look_inOrder {l : Log} {n : Nat} {c : RxCall} {res : Dev × Option RxCall}
    (hi : Inv l.nic free queue) (hr : RxSlots l.nic.dev) (hq : Queued l.nic n) (ho : InOrder l n)
    (hc : l.nic.rx = some c) (hpc : c.pc = .look) (hres : stepRx l.nic.dev c = some res) :
    let t : Nic := { l.nic with dev := res.1, rx := res.2 }
    Queued t n ∧ InOrder ⟨t, l.arrived, l.received⟩ n ∧ passed l.nic t = [] := by
  have hout : l.nic.receiving = false := by simp only [Nic.receiving, hc, hpc]
  have hnext : l.nic.nextRx = l.nic.dev.curRx := by
    rw [Nic.nextRx, hout]
    rfl
  obtain ⟨pc, firstTime, rxcount⟩ := c
  obtain rfl : pc = .look := hpc
  simp only [stepRx] at hres
  split at hres
  · split at hres
    · obtain rfl := Option.some.inj hres
      obtain ⟨hq', ho'⟩ := InOrder.rest (t := { l.nic with rx := some ⟨.look, false, rxcount⟩ }) hq ho
        (fun c' h' => Option.some.inj h' ▸ rfl) hnext.symm ⟨rfl, rfl, rfl⟩
      exact ⟨hq', ho', by rw [passed, hc]⟩
    · obtain rfl := Option.some.inj hres
      obtain ⟨hq', ho'⟩ := InOrder.rest (t := { l.nic with rx := none }) hq ho
        (fun c' h' => absurd h' (Option.not_mem_none c')) hnext.symm ⟨rfl, rfl, rfl⟩
      exact ⟨hq', ho', by rw [passed, hc]⟩
  · rename_i hown
    obtain ⟨p, hp, rfl⟩ := Option.map_eq_some_iff.mp hres
    intro t
    have hrecv : t.receiving = false := rfl
    have hsame : t.nextRx = l.nic.nextRx := by
      rw [hnext, Nic.nextRx, hrecv]
      rfl
    have hptr : (l.nic.dev.rxDesc l.nic.dev.curRx).dataPtr = p :=
      Option.some.inj ((hr _ hi.rings.curRx).symm.trans hp)
    have hpos : 0 < n := by
      by_contra hzero
      have hempty := hq.empty 0 (by omega) (by decide)
      rw [hnext, Nat.add_zero, Nat.mod_eq_of_lt hi.rings.curRx] at hempty
      exact hown hempty
    refine ⟨⟨hq.le, hsame ▸ hq.rxsd, hsame ▸ hq.full, hsame ▸ hq.empty, fun c' q h' hq' => ?_⟩,
      ⟨hsame ▸ ho.arrived, fun c' q h' hq' => ?_⟩, ?_⟩
    · obtain rfl := Option.some.inj h'
      obtain rfl := RxPc.swap.inj hq'
      refine ⟨hpos, ?_⟩
      simp only [Dev.frameAt, Function.update_self, hptr, t]
    · obtain rfl := Option.some.inj h'
      cases hq'
    · rw [passed, hc]

/-- The packet is taken, another one goes into the ring, and `NetReceive` is called. -/
theorem swap_inOrder {l : Log} {n : Nat} {c : RxCall} {p : Nat} {res : Dev × Option RxCall}
    (hi : Inv l.nic free queue) (hq : Queued l.nic n) (ho : InOrder l n)
    (hc : l.nic.rx = some c) (hpc : c.pc = .swap p) (hres : stepRx l.nic.dev c = some res) :
    let t : Nic := { l.nic with dev := res.1, rx := res.2 }
    Queued t (n - 1) ∧ InOrder ⟨t, l.arrived, l.received ++ passed l.nic t⟩ (n - 1) := by
  have hnext : l.nic.nextRx = l.nic.dev.curRx := by
    rw [Nic.nextRx, receiving_swap hc hpc]
    rfl
  obtain ⟨hpos, hframe⟩ := hq.taken c p hc hpc
  obtain ⟨m, rfl⟩ : ∃ m, n = m + 1 := ⟨n - 1, by omega⟩
  obtain ⟨pc, firstTime, rxcount⟩ := c
  obtain rfl : pc = .swap p := hpc
  have hcur := hi.rings.curRx
  have hsame := allocPkt_sameBuffers l.nic.dev
  simp only [stepRx] at hres
  generalize allocPkt l.nic.dev = res' at hsame hres
  obtain ⟨e, pkt⟩ := res'
  cases pkt with
  | none => cases hres
  | some q =>
    obtain rfl := Option.some.inj hres
    intro t
    have hstart : t.nextRx = (l.nic.nextRx + 1) % maxRfdNum := by
      rw [hnext, ← nextIdx_eq hcur]
      exact congrArg (nextIdx maxRfdNum) hsame.curRx
    have hplace : ∀ k, (t.nextRx + k) % maxRfdNum = (l.nic.nextRx + (k + 1)) % maxRfdNum := by
      intro k
      rw [hstart, Nat.mod_add_mod, Nat.add_assoc, Nat.add_comm 1 k]
    have hne : ∀ k, k + 1 < maxRfdNum → (l.nic.nextRx + (k + 1)) % maxRfdNum ≠ e.curRx := by
      intro k hk
      rw [hnext, hsame.curRx]
      exact window_place_ne hcur (Nat.succ_pos k) hk
    have hdesc : ∀ i, i ≠ e.curRx → t.dev.rxDesc i = l.nic.dev.rxDesc i := fun i hi =>
      (Function.update_of_ne hi _ _).trans (congrFun hsame.rxDesc i)
    have hat : ∀ i, i ≠ e.curRx → t.dev.frameAt i = l.nic.dev.frameAt i := by
      intro i hi
      rw [Dev.frameAt, hdesc i hi]
      exact congrArg (·, _) (congrFun hsame.frame _)
    have hbuffer : t.dev.frame = l.nic.dev.frame := hsame.frame
    have hlength : t.dev.length = l.nic.dev.length := hsame.length
    have hcall : passed l.nic t = [(t.dev.frame p, t.dev.length p)] := by rw [passed, hc]
    have hwaiting : (window maxRfdNum t.nextRx m).map t.dev.frameAt =
        (window maxRfdNum ((l.nic.nextRx + 1) % maxRfdNum) m).map l.nic.dev.frameAt := by
      rw [hstart]
      apply List.map_congr_left
      intro i hmem
      apply hat
      intro he
      have hstart' := window_start_not_mem hi.rings.nextRx_lt (Nat.lt_of_succ_le hq.le)
      rw [hnext, ← hsame.curRx, ← he] at hstart'
      rw [hnext, ← hsame.curRx, ← he] at hmem
      exact hstart' hmem
    have hle := hq.le
    rw [Nat.add_sub_cancel]
    refine ⟨⟨by omega, ?_, fun k hk => ?_, fun k hk hlt => ?_, fun c' q h' hq' => ?_⟩,
      ⟨?_, fun c' q h' hq' => ?_⟩⟩
    · rw [hplace]
      exact hsame.rxsd.trans hq.rxsd
    · rw [hplace, hdesc _ (hne k (by omega))]
      exact hq.full (k + 1) (by omega)
    · rw [hplace]
      by_cases he : k + 1 = maxRfdNum
      · have hslot : (l.nic.nextRx + (k + 1)) % maxRfdNum = e.curRx := by
          rw [he, Nat.add_mod_right, hnext, hsame.curRx, Nat.mod_eq_of_lt hcur]
        have hgiven : t.dev.rxDesc e.curRx = ⟨q, pktBufferSize, false⟩ :=
          Function.update_self (e.curRx) _ _
        rw [hslot, hgiven]
      · rw [hdesc _ (hne k (by omega))]
        exact hq.empty (k + 1) (by omega) (by omega)
    · obtain rfl := Option.some.inj h'
      cases hq'
    · rw [hwaiting, hcall, hbuffer, hlength, ← hframe, ho.arrived, window_cons hi.rings.nextRx_lt,
        List.map_cons, hnext, List.append_assoc, List.singleton_append]
    · obtain rfl := Option.some.inj h'
      obtain rfl := RxPc.receive.inj hq'
      rw [hcall, List.getLast?_concat]

/-- `NetReceive` has returned: the packet is freed and the index follows. -/
theorem receive_inOrder {l : Log} {n : Nat} {c : RxCall} {p : Nat} {res : Dev × Option RxCall}
    (hq : Queued l.nic n) (ho : InOrder l n) (hc : l.nic.rx = some c) (hpc : c.pc = .receive p)
    (hres : stepRx l.nic.dev c = some res) :
    let t : Nic := { l.nic with dev := res.1, rx := res.2 }
    Queued t n ∧ InOrder ⟨t, l.arrived, l.received⟩ n ∧ passed l.nic t = [] := by
  have hnext : l.nic.nextRx = nextIdx maxRfdNum l.nic.dev.curRx := by
    have hin : l.nic.receiving = true := by simp only [Nic.receiving, hc, hpc]
    rw [Nic.nextRx, hin]
    rfl
  obtain ⟨pc, firstTime, rxcount⟩ := c
  obtain rfl : pc = .receive p := hpc
  simp only [stepRx] at hres
  split at hres
  · obtain rfl := Option.some.inj hres
    obtain ⟨hq', ho'⟩ := InOrder.rest (t := { l.nic with
        dev := { freePkt l.nic.dev p with curRx := nextIdx maxRfdNum l.nic.dev.curRx }
        rx := none }) hq ho
      (fun c' h' => absurd h' (Option.not_mem_none c')) hnext.symm ⟨rfl, rfl, rfl⟩
    exact ⟨hq', ho', by rw [passed, hc]⟩
  · obtain rfl := Option.some.inj hres
    obtain ⟨hq', ho'⟩ := InOrder.rest (t := { l.nic with
        dev := { freePkt l.nic.dev p with curRx := nextIdx maxRfdNum l.nic.dev.curRx }
        rx := some ⟨.look, firstTime, rxcount + 1⟩ }) hq ho
      (fun c' h' => Option.some.inj h' ▸ rfl) hnext.symm ⟨rfl, rfl, rfl⟩
    exact ⟨hq', ho', by rw [passed, hc]⟩

end

theorem start_inOrder : Queued start 0 ∧ InOrder {} 0 := by
  refine ⟨⟨Nat.zero_le _, by decide, by simp, by decide +kernel, fun c p hc => ?_⟩,
    ⟨rfl, fun c p hc => ?_⟩⟩
  · cases hc
  · cases hc

/-- Each step keeps the order. -/
theorem step_inOrder {l : Log} {t : Nic} {a : Act} {free queue : List Nat} {n : Nat}
    (hi : Inv l.nic free queue) (hr : RxSlots l.nic.dev) (hq : Queued l.nic n) (ho : InOrder l n)
    (ht : UBoot.step l.nic a = some t) : ∃ m, Queued t m ∧
      InOrder ⟨t, l.arrived ++ arriving a, l.received ++ passed l.nic t⟩ m := by
  have helsewhere : arriving a = [] → Elsewhere l.nic t → ∃ m, Queued t m ∧
      InOrder ⟨t, l.arrived ++ arriving a, l.received ++ passed l.nic t⟩ m := by
    intro hnone he
    rw [hnone, passed_same he.rx, List.append_nil, List.append_nil]
    exact ⟨n, hq.elsewhere hi hr he, ho.elsewhere hr he⟩
  cases a with
  | complete =>
    obtain ⟨d, hd, rfl⟩ := Option.map_eq_some_iff.mp ht
    exact helsewhere rfl ((complete_sameBuffers hd).elsewhere rfl)
  | fill frame len =>
    obtain ⟨d, hd, rfl⟩ := Option.map_eq_some_iff.mp ht
    have hfilled := fill_filled hd
    rw [passed_same hfilled.rx, List.append_nil]
    exact ⟨n + 1, hfilled.queued hi hr hq, hfilled.inOrder hi hr hq ho⟩
  | ethSend frame len =>
    simp only [step] at ht
    split at ht
    · obtain rfl := Option.some.inj ht
      exact helsewhere rfl (ethSend_elsewhere hi frame len)
    · cases ht
  | ethRx =>
    simp only [step] at ht
    split at ht
    · rename_i hidle
      simp only [Bool.and_eq_true, Option.isNone_iff_eq_none] at hidle
      obtain rfl := Option.some.inj ht
      have hnext : l.nic.nextRx = l.nic.dev.curRx := by
        simp only [Nic.nextRx, Nic.receiving, hidle.1, Bool.false_eq_true, if_false]
      obtain ⟨hq', ho'⟩ := InOrder.rest (t := { l.nic with rx := some {} }) hq ho
        (fun c hc => Option.some.inj hc ▸ rfl) hnext.symm ⟨rfl, rfl, rfl⟩
      have hnone : arriving .ethRx = [] := rfl
      have hpassed : passed l.nic { l.nic with rx := some {} } = [] := by rw [passed, hidle.1]
      rw [hnone, hpassed, List.append_nil, List.append_nil]
      exact ⟨n, hq', ho'⟩
    · cases ht
  | go =>
    have hnone : arriving .go = [] := rfl
    rw [hnone, List.append_nil] at helsewhere ⊢
    simp only [step] at ht
    split at ht
    · rename_i pc hpc
      obtain rfl := Option.some.inj ht
      exact helsewhere rfl ((stepTx_sameBuffers l.nic.dev pc).elsewhere rfl)
    · rename_i c htx hc
      obtain ⟨res, hres, rfl⟩ := Option.map_eq_some_iff.mp ht
      cases hpc : c.pc with
      | look =>
        obtain ⟨hq', ho', hpassed⟩ := look_inOrder hi hr hq ho hc hpc hres
        rw [hpassed, List.append_nil]
        exact ⟨n, hq', ho'⟩
      | swap p => exact ⟨n - 1, swap_inOrder hi hq ho hc hpc hres⟩
      | receive p =>
        obtain ⟨hq', ho', hpassed⟩ := receive_inOrder hq ho hc hpc hres
        rw [hpassed, List.append_nil]
        exact ⟨n, hq', ho'⟩
    · cases ht

/-- Three frames come in while `NetReceive` answers the first. -/
def answered : List Act :=
  [.fill 100 64, .ethRx, .go, .go, .fill 101 70, .ethSend 7 42, .fill 102 80, .go, .go, .go]

end SnakeOs.UBoot
