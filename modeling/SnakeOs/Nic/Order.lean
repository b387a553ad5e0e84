import SnakeOs.Nic.Wakeup
import SnakeOs.Lib.Ring

namespace SnakeOs.Nic
open Arch Lib

/-- A reception reaches the descriptor at `cur_index` only when no descriptor holds an
undelivered packet, and not between a poll's reading of RXSD and its look at `cown`. -/
def InOrder (s : Rx) : RxAct → Prop
  | .receive _ => s.rxsd = s.cur →
      (∀ i < maxRfdNum, (s.desc i).cown = false) ∧ s.pc ≠ .count s.cur
  | _ => True

instance (s : Rx) : (a : RxAct) → Decidable (InOrder s a)
  | .receive _ => inferInstanceAs (Decidable (s.rxsd = s.cur →
      (∀ i < maxRfdNum, (s.desc i).cown = false) ∧ s.pc ≠ .count s.cur))
  | .queueFull | .resume | .receiveIsr | .rxqfIsr | .poll _ _ | .work _ => .isTrue trivial

/-- The packet a descriptor holds. -/
def RxDesc.content (d : RxDesc) : Option Nat := if d.cown then some d.packet else none

/-- The packets in the `n` descriptors from `c` on. -/
def waiting (desc : Nat → RxDesc) (c n : Nat) : List Nat :=
  (window maxRfdNum c n).filterMap fun i => (desc i).content

theorem waiting_cons (desc : Nat → RxDesc) {c : Nat} (n : Nat) (h : c < maxRfdNum) :
    waiting desc c (n + 1) =
      (desc c).content.toList ++ waiting desc ((c + 1) % maxRfdNum) n := by
  rw [waiting, window_cons h]
  cases hc : (desc c).content with
  | none => simp [hc, waiting]
  | some p => simp [hc, waiting]

theorem waiting_snoc (desc : Nat → RxDesc) (c n : Nat) :
    waiting desc c (n + 1) =
      waiting desc c n ++ (desc ((c + n) % maxRfdNum)).content.toList := by
  rw [waiting, window_snoc, List.filterMap_append]
  cases hc : (desc ((c + n) % maxRfdNum)).content with
  | none => simp [hc, waiting]
  | some p => simp [hc, waiting]

theorem waiting_update {desc : Nat → RxDesc} {c n i : Nat} (d : RxDesc)
    (h : i ∉ window maxRfdNum c n) :
    waiting (Function.update desc i d) c n = waiting desc c n := by
  apply List.filterMap_congr
  intro k hk
  have hne : k ≠ i := fun e => h (e ▸ hk)
  rw [Function.update_of_ne hne]

/-- `n` descriptors from `cur_index` on belong to the driver: those behind the first hold
a packet, the first may have been given back after a failed allocation. -/
structure Queue (s : Rx) (n : Nat) : Prop where
  le : n ≤ maxRfdNum
  cur : s.cur < maxRfdNum
  rxsd : s.rxsd = (s.cur + n) % maxRfdNum
  held : ∀ k, 0 < k → k < n → (s.desc ((s.cur + k) % maxRfdNum)).cown = true
  free : ∀ k, n ≤ k → k < maxRfdNum → (s.desc ((s.cur + k) % maxRfdNum)).cown = false
  sampled : ∀ r, s.pc = .count r → ∃ m ≤ n, r = (s.cur + m) % maxRfdNum ∧ (m = 0 → n = 0)
  loop : ∀ i c, s.pc = .loop i c → c ≤ n + i

/-- The packets handed up and those waiting, in the order of reception. -/
def inOrder (s : Rx) (n : Nat) : List Nat :=
  s.handed.map Handed.packet ++ waiting s.desc s.cur n

structure Ordered (s : Rx) (n : Nat) : Prop where
  sorted : (inOrder s n).Pairwise (· < ·)
  known : ∀ p ∈ inOrder s n, p < s.received
  accounted : ∀ p < s.received, p ∈ inOrder s n ∨ p ∈ s.failed ∨ p ∈ s.freed.map Prod.fst

theorem bufferAlloc_queue (data : Nat → U32) : Queue (bufferAlloc data) 0 where
  le := Nat.zero_le _
  cur := Nat.zero_lt_succ _
  rxsd := rfl
  held := fun k _ hk => absurd hk (Nat.not_lt_zero k)
  free := fun _ _ _ => rfl
  sampled := by simp [bufferAlloc]
  loop := by simp [bufferAlloc]

theorem bufferAlloc_ordered (data : Nat → U32) : Ordered (bufferAlloc data) 0 where
  sorted := by simp [inOrder, bufferAlloc, waiting]
  known := by simp [inOrder, bufferAlloc, waiting]
  accounted := by simp [bufferAlloc]

/-- With the condition, a reception goes to the first descriptor behind the queue. -/
theorem Queue.room {s : Rx} {n : Nat} (h : Queue s n)
    (hok : s.rxsd = s.cur → (∀ i < maxRfdNum, (s.desc i).cown = false) ∧ s.pc ≠ .count s.cur) :
    n < maxRfdNum := by
  rcases Nat.lt_or_ge n maxRfdNum with hn | hn
  · exact hn
  · have hn : n = maxRfdNum := Nat.le_antisymm h.le hn
    have hcur : s.rxsd = s.cur := by
      rw [h.rxsd, hn, Nat.add_mod_right, Nat.mod_eq_of_lt h.cur]
    have hheld := h.held 1 Nat.zero_lt_one (by rw [hn]; decide)
    have := (hok hcur).1 ((s.cur + 1) % maxRfdNum) (Nat.mod_lt _ (by decide))
    rw [this] at hheld
    cases hheld

theorem receive_queue {s : Rx} {n : Nat} {f : Frame} (h : Queue s n) (hn : n < maxRfdNum)
    (hok : s.rxsd = s.cur → s.pc ≠ .count s.cur) : Queue { s with
      desc := Function.update s.desc s.rxsd
        { s.desc s.rxsd with frame := f, cown := true, packet := s.received }
      received := s.received + 1
      rxsd := (s.rxsd + 1) % maxRfdNum
      rxrc := true } (n + 1) := by
  refine ⟨hn, h.cur, ?_, ?_, ?_, ?_, ?_⟩
  · simp [h.rxsd, Nat.add_assoc]
  · intro k hk hkn
    by_cases he : (s.cur + k) % maxRfdNum = s.rxsd
    · simp [he]
    · simp only [Function.update_of_ne he]
      refine h.held k hk (lt_of_le_of_ne (Nat.le_of_lt_succ hkn) fun e => he ?_)
      rw [e, h.rxsd]
  · intro k hk hkN
    have he : (s.cur + k) % maxRfdNum ≠ s.rxsd := fun e => by
      have := window_place_inj hkN hn (e.trans h.rxsd)
      omega
    simp only [Function.update_of_ne he]
    exact h.free k (by omega) hkN
  · intro r hr
    obtain ⟨m, hm, hrm, h0⟩ := h.sampled r hr
    refine ⟨m, by omega, hrm, fun hm0 => ?_⟩
    have hn0 := h0 hm0
    have hcur : s.rxsd = s.cur := by rw [h.rxsd, hn0, Nat.add_zero, Nat.mod_eq_of_lt h.cur]
    have hrc : r = s.cur := by rw [hrm, hm0, Nat.add_zero, Nat.mod_eq_of_lt h.cur]
    exact absurd (hrc ▸ hr) (hok hcur)
  · intro i c hc
    have := h.loop i c hc
    omega

theorem receive_ordered {s : Rx} {n : Nat} {f : Frame} (h : Ordered s n) (hq : Queue s n)
    (hn : n < maxRfdNum) : Ordered { s with
      desc := Function.update s.desc s.rxsd
        { s.desc s.rxsd with frame := f, cown := true, packet := s.received }
      received := s.received + 1
      rxsd := (s.rxsd + 1) % maxRfdNum
      rxrc := true } (n + 1) := by
  have hw : s.rxsd ∉ window maxRfdNum s.cur n := hq.rxsd ▸ window_end_not_mem hn
  have heq : inOrder { s with
      desc := Function.update s.desc s.rxsd
        { s.desc s.rxsd with frame := f, cown := true, packet := s.received }
      received := s.received + 1
      rxsd := (s.rxsd + 1) % maxRfdNum
      rxrc := true } (n + 1) = inOrder s n ++ [s.received] := by
    simp only [inOrder, waiting_snoc, waiting_update _ hw, ← hq.rxsd, Function.update_self]
    simp [RxDesc.content]
  refine ⟨?_, ?_, ?_⟩
  · rw [heq, List.pairwise_append]
    refine ⟨h.sorted, by simp, fun p hp q hpq => ?_⟩
    rw [List.mem_singleton.mp hpq]
    exact h.known p hp
  · intro p hp
    rw [heq] at hp
    rcases List.mem_append.mp hp with hp | hp
    · exact Nat.lt_succ_of_lt (h.known p hp)
    · exact List.mem_singleton.mp hp ▸ Nat.lt_succ_self _
  · intro p hp
    rw [heq]
    rcases Nat.lt_succ_iff_lt_or_eq.mp hp with hp | rfl
    · rcases h.accounted p hp with ha | ha
      · exact .inl (List.mem_append_left _ ha)
      · exact .inr ha
    · exact .inl (List.mem_append_right _ (List.mem_singleton_self _))

/-- The place behind the next one. -/
theorem place_succ (c k : Nat) :
    ((c + 1) % maxRfdNum + k) % maxRfdNum = (c + (k + 1)) % maxRfdNum := by
  rw [Nat.mod_add_mod, Nat.add_assoc, Nat.add_comm 1 k]

/-- A round that goes on to the next descriptor. -/
theorem Queue.next {s t : Rx} {n i c : Nat} (h : Queue s (n + 1)) (hp : s.pc = .loop i c)
    (hc : t.cur = (s.cur + 1) % maxRfdNum) (hr : t.rxsd = s.rxsd)
    (hd : ∀ j, j ≠ s.cur → t.desc j = s.desc j) (h0 : (t.desc s.cur).cown = false)
    (hpc : t.pc = .loop (i + 1) c) : Queue t n := by
  have hne : ∀ k, k + 1 < maxRfdNum → (s.cur + (k + 1)) % maxRfdNum ≠ s.cur :=
    fun k hk => window_place_ne h.cur (Nat.zero_lt_succ k) hk
  have hle := h.le
  refine ⟨by omega, ?_, ?_, ?_, ?_, ?_, ?_⟩
  · rw [hc]
    exact Nat.mod_lt _ (by decide)
  · rw [hr, h.rxsd, hc, place_succ]
  · intro k hk hkn
    rw [hc, place_succ, hd _ (hne k (by omega))]
    exact h.held (k + 1) (by omega) (by omega)
  · intro k hk hkN
    rw [hc, place_succ]
    by_cases hlast : k + 1 = maxRfdNum
    · rw [hlast, Nat.add_mod_right, Nat.mod_eq_of_lt h.cur]
      exact h0
    · rw [hd _ (hne k (by omega))]
      exact h.free (k + 1) (by omega) (by omega)
  · simp [hpc]
  · intro i' c' he
    obtain ⟨rfl, rfl⟩ := Pc.loop.inj (hpc.symm.trans he)
    have := h.loop i c hp
    omega

/-- What a round does to the packets that wait: the first leaves the ring. -/
theorem waiting_next {s t : Rx} {n : Nat} (h : Queue s (n + 1))
    (hc : t.cur = (s.cur + 1) % maxRfdNum) (hd : ∀ j, j ≠ s.cur → t.desc j = s.desc j) :
    waiting s.desc s.cur (n + 1) = (s.desc s.cur).content.toList ++ waiting t.desc t.cur n := by
  rw [waiting_cons _ n h.cur, hc]
  congr 1
  apply List.filterMap_congr
  intro k hk
  have hn := h.le
  have hne : k ≠ s.cur := fun e => window_start_not_mem h.cur (by omega) (e ▸ hk)
  rw [hd k hne]

/-- Handing up the first packet, or passing a descriptor that was given back. -/
theorem Ordered.next {s t : Rx} {n : Nat} (h : Ordered s (n + 1)) (hq : Queue s (n + 1))
    (hc : t.cur = (s.cur + 1) % maxRfdNum) (hd : ∀ j, j ≠ s.cur → t.desc j = s.desc j)
    (hh : t.handed.map Handed.packet =
      s.handed.map Handed.packet ++ (s.desc s.cur).content.toList)
    (hr : t.received = s.received) (hf : t.failed = s.failed) (he : t.freed = s.freed) :
    Ordered t n := by
  have heq : inOrder t n = inOrder s (n + 1) := by
    rw [inOrder, inOrder, waiting_next hq hc hd, hh, List.append_assoc]
  refine ⟨?_, ?_, ?_⟩
  · rw [heq]
    exact h.sorted
  · rw [heq, hr]
    exact h.known
  · rw [heq, hr, hf, he]
    exact h.accounted

/-- A failed allocation gives the first descriptor back with its packet lost. -/
theorem fail_ordered {s : Rx} {n : Nat} (h : Ordered s (n + 1)) (hq : Queue s (n + 1))
    (hown : (s.desc s.cur).cown = true) : Ordered { s with
      workDone := s.workDone + 1
      visited := s.visited + 1
      pc := .decide
      desc := Function.update s.desc s.cur { s.desc s.cur with cown := false }
      failed := s.failed ++ [(s.desc s.cur).packet] } (n + 1) := by
  have hle := hq.le
  have hw : s.cur ∉ window maxRfdNum ((s.cur + 1) % maxRfdNum) n :=
    window_start_not_mem hq.cur (by omega)
  have hold : inOrder s (n + 1) = s.handed.map Handed.packet ++ ((s.desc s.cur).packet ::
      waiting s.desc ((s.cur + 1) % maxRfdNum) n) := by
    rw [inOrder, waiting_cons _ n hq.cur]
    simp [RxDesc.content, hown]
  have hnew : waiting (Function.update s.desc s.cur { s.desc s.cur with cown := false }) s.cur
      (n + 1) = waiting s.desc ((s.cur + 1) % maxRfdNum) n := by
    rw [waiting_cons _ n hq.cur, waiting_update _ hw]
    simp [RxDesc.content]
  have hsub : (s.handed.map Handed.packet ++ waiting s.desc ((s.cur + 1) % maxRfdNum) n).Sublist
      (inOrder s (n + 1)) := by
    rw [hold]
    exact (List.Sublist.refl _).append (List.sublist_cons_self _ _)
  refine ⟨?_, ?_, ?_⟩
  · simp only [inOrder, hnew]
    exact h.sorted.sublist hsub
  · simp only [inOrder, hnew]
    exact fun p hp => h.known p (hsub.subset hp)
  · intro p hp
    simp only [inOrder, hnew]
    rcases h.accounted p hp with ha | ha | ha
    · rw [hold] at ha
      rcases List.mem_append.mp ha with ha | ha
      · exact .inl (List.mem_append_left _ ha)
      · rcases List.mem_cons.mp ha with rfl | ha
        · exact .inr (.inl (List.mem_append_right _ (List.mem_singleton_self _)))
        · exact .inl (List.mem_append_right _ ha)
    · exact .inr (.inl (List.mem_append_left _ ha))
    · exact .inr (.inr ha)

theorem fail_queue {s : Rx} {n : Nat} (h : Queue s (n + 1)) : Queue { s with
      workDone := s.workDone + 1
      visited := s.visited + 1
      pc := .decide
      desc := Function.update s.desc s.cur { s.desc s.cur with cown := false }
      failed := s.failed ++ [(s.desc s.cur).packet] } (n + 1) := by
  have hle := h.le
  refine ⟨h.le, h.cur, h.rxsd, ?_, ?_, by simp, by simp⟩
  · intro k hk hkn
    simp only [Function.update_of_ne (window_place_ne h.cur hk (by omega))]
    exact h.held k hk hkn
  · intro k hk hkN
    simp only [Function.update_of_ne (window_place_ne h.cur (by omega) hkN)]
    exact h.free k hk hkN

/-- The driver's part of the ring is a queue in the order of reception. -/
def Fifo (s : Rx) : Prop := ∃ n, Queue s n ∧ Ordered s n

theorem visit_fifo {s t : Rx} {i c : Nat} {alloc : Option U32} (h : Fifo s)
    (hp : s.pc = .loop i c) (ht : visit s i c alloc = some t) : Fifo t := by
  obtain ⟨n, hq, ho⟩ := h
  rcases visit_cases ht with ⟨_, rfl⟩ | ⟨hi, _, hround⟩
  · exact ⟨n, { hq with sampled := by simp, loop := by simp }, { ho with }⟩
  · have hlen := hq.loop i c hp
    obtain ⟨n, rfl⟩ : ∃ m, n = m + 1 := ⟨n - 1, by omega⟩
    rcases hround with ⟨hown, data, k, st, hd, _, hpk, _, rfl⟩ | ⟨hown, rfl⟩ | ⟨hown, rfl⟩
    · have hdesc : ∀ j, j ≠ s.cur → (advance (refill { s with
          workDone := s.workDone + 1
          visited := s.visited + 1
          stats := st
          handed := s.handed ++ [hd] } s.cur data) i c).desc j = s.desc j :=
        fun j hj => Function.update_of_ne hj _ _
      refine ⟨n, hq.next hp (cyclic_eq hq.cur) rfl hdesc ?_ rfl,
        ho.next hq (cyclic_eq hq.cur) hdesc ?_ rfl rfl rfl⟩
      · simp [advance, refill]
      · simp [advance, refill, RxDesc.content, hown, hpk]
    · exact ⟨n + 1, fail_queue hq, fail_ordered ho hq hown⟩
    · refine ⟨n, hq.next hp (cyclic_eq hq.cur) rfl (fun _ _ => rfl) hown rfl,
        ho.next hq (cyclic_eq hq.cur) (fun _ _ => rfl) ?_ rfl rfl rfl⟩
      simp [advance, RxDesc.content, hown]

/-- The count taken from RXSD never goes beyond the queue. -/
theorem rxCount_queue {s : Rx} {n r c : Nat} (h : Queue s n) (hp : s.pc = .count r)
    (hc : rxCount r s.cur (s.desc s.cur).cown = some c) : c ≤ n := by
  obtain ⟨m, hm, hr, h0⟩ := h.sampled r hp
  have hcur := h.cur
  have hle := h.le
  have hm0 : (s.desc s.cur).cown = true → m ≠ 0 := fun hown e => by
    have := h.free 0 (by rw [h0 e]) (by omega)
    rw [Nat.add_zero, Nat.mod_eq_of_lt hcur, hown] at this
    cases this
  simp only [rxCount, maxRfdNum] at hc hr hcur hle
  split at hc
  · have := Option.some.inj hc
    omega
  · split at hc
    · have := Option.some.inj hc
      omega
    · split at hc
      · rename_i hown
        have := hm0 hown
        have := Option.some.inj hc
        omega
      · cases hc

theorem stepPoll_fifo {s t : Rx} {alloc : Option U32} (h : Fifo s)
    (ht : stepPoll s alloc = some t) : Fifo t := by
  obtain ⟨n, hq, ho⟩ := h
  rcases stepPoll_cases ht with ⟨hp, rfl⟩ | ⟨r, c, hp, hc, rfl⟩ | ⟨r, _, _, rfl⟩ |
    ⟨i, c, hp, hv⟩ | ⟨_, _, rfl⟩ | ⟨_, _, rfl⟩ | ⟨_, _, rfl⟩ | ⟨_, _, rfl⟩ | ⟨_, rfl⟩ | ⟨_, rfl⟩ |
    ⟨_, rfl⟩
  case inl =>
    refine ⟨n, { hq with sampled := ?_, loop := by simp }, { ho with }⟩
    intro r hr
    obtain rfl := Pc.count.inj hr
    exact ⟨n, le_refl n, hq.rxsd, id⟩
  case inr.inl =>
    refine ⟨n, { hq with sampled := by simp, loop := ?_ }, { ho with }⟩
    intro i' c' he
    obtain ⟨rfl, rfl⟩ := Pc.loop.inj he
    exact rxCount_queue hq hp hc
  case inr.inr.inr.inl => exact visit_fifo ⟨n, hq, ho⟩ hp hv
  all_goals exact ⟨n, { hq with sampled := by simp, loop := by simp }, { ho with }⟩

theorem rxStep_fifo {s t : Rx} {a : RxAct} (h : Fifo s) (hok : InOrder s a)
    (ht : rxStep s a = some t) : Fifo t := by
  rcases rxStep_cases ht with ⟨f, rfl, _, _, rfl⟩ | ⟨_, _, _, rfl⟩ | ⟨_, rfl⟩ | ⟨_, _, rfl⟩ |
    ⟨_, _, rfl⟩ | ⟨b, q, _, _, rfl⟩ | ⟨alloc, _, hp⟩
  · obtain ⟨n, hq, ho⟩ := h
    have hn := hq.room hok
    exact ⟨n + 1, receive_queue hq hn fun e => (hok e).2, receive_ordered ho hq hn⟩
  · obtain ⟨n, hq, ho⟩ := h
    exact ⟨n, { hq with }, { ho with }⟩
  · obtain ⟨n, hq, ho⟩ := h
    exact ⟨n, { hq with }, { ho with }⟩
  · obtain ⟨n, hq, ho⟩ := h
    exact ⟨n, { hq with }, { ho with }⟩
  · obtain ⟨n, hq, ho⟩ := h
    exact ⟨n, { hq with }, { ho with }⟩
  · obtain ⟨n, hq, ho⟩ := h
    exact ⟨n, { hq with sampled := by simp, loop := by simp }, { ho with }⟩
  · exact stepPoll_fifo h hp

/-- Packets are handed up in the order of reception, none twice, and one that is neither
handed up nor in the ring was lost to a failed allocation or the checksum branch. -/
structure Delivered (s : Rx) : Prop where
  order : (s.handed.map Handed.packet).Pairwise (· < ·)
  once : (s.handed.map Handed.packet).Nodup
  real : ∀ h ∈ s.handed, h.packet < s.received
  accounted : ∀ p < s.received, p ∈ s.handed.map Handed.packet ∨ p ∈ s.failed ∨
    p ∈ s.freed.map Prod.fst ∨ ∃ i < maxRfdNum, (s.desc i).cown = true ∧ (s.desc i).packet = p

theorem Fifo.delivered {s : Rx} (h : Fifo s) : Delivered s := by
  obtain ⟨n, hq, ho⟩ := h
  have hsub : (s.handed.map Handed.packet).Sublist (inOrder s n) := List.sublist_append_left _ _
  have horder := ho.sorted.sublist hsub
  refine ⟨horder, horder.imp fun h => Nat.ne_of_lt h, ?_, ?_⟩
  · intro h hh
    exact ho.known _ (hsub.subset (List.mem_map_of_mem hh))
  · intro p hp
    rcases ho.accounted p hp with ha | ha | ha
    · rcases List.mem_append.mp ha with ha | ha
      · exact .inl ha
      · obtain ⟨i, hi, hc⟩ := List.mem_filterMap.mp ha
        obtain ⟨k, _, rfl⟩ := mem_window.mp hi
        refine .inr (.inr (.inr ⟨(s.cur + k) % maxRfdNum, Nat.mod_lt _ (by decide), ?_⟩))
        simp only [RxDesc.content] at hc
        split at hc
        · rename_i hown
          exact ⟨hown, Option.some.inj hc⟩
        · cases hc
    · exact .inr (.inl ha)
    · exact .inr (.inr (.inl ha))

theorem ordered_delivery (data : Nat → U32) {s : Rx}
    (h : Reach rxStep InOrder (bufferAlloc data) s) : Delivered s := by
  have hf : Fifo s := h.invariant ⟨0, bufferAlloc_queue data, bufferAlloc_ordered data⟩
    fun _ _ _ hi hok ht => rxStep_fifo hi hok ht
  exact hf.delivered

/-- Three frames; the allocation for the second one fails and ends the poll. A fourth frame
comes in before the next poll. -/
def failureBetween : List RxAct :=
  [.receive { length := 64 }, .receive { length := 1500 }, .receive { length := 60 }, .receiveIsr,
    .poll 300 64, .work none, .work none, .work (some 0xC0800000), .work none, .work none,
    .work none, .receive { length := 128 }, .poll 299 63, .work none, .work none, .work none,
    .work (some 0xC0801000), .work (some 0xC0802000), .work none, .work none, .work none]

theorem ordered_delivery_failure :
    ∃ s, run rxStep InOrder failureBetween (bufferAlloc evenly) = some s ∧
      s.handed.map Handed.packet = [0, 2, 3] ∧ s.failed = [1] ∧ s.pc = .idle ∧ Delivered s := by
  refine ⟨_, rfl, rfl, rfl, rfl, ?_⟩
  exact ordered_delivery evenly (Reach.start.run failureBetween rfl)

/-- The ring runs full, the allocation for packet 0 fails, and the hardware, started
again, puts packet 64 into the descriptor that was given back. -/
def fullRingFailure : List RxAct :=
  List.replicate 64 (.receive { length := 64 }) ++
    [.queueFull, .receiveIsr, .rxqfIsr, .poll 300 64, .work none, .work none, .work none,
      .work none, .work none, .work none, .work none, .receive { length := 64 }, .poll 299 63,
      .work none, .work none, .work (some 0xC0800000), .work none, .work none, .work none,
      .poll 298 62, .work none, .work none, .work (some 0xC0801000)]

theorem newest_overtakes :
    ∃ s, run rxStep Napi fullRingFailure (bufferAlloc evenly) = some s ∧
      Reach rxStep Napi (bufferAlloc evenly) s ∧ s.handed.map Handed.packet = [64, 1] ∧
      ¬ Delivered s := by
  have h : (run rxStep Napi fullRingFailure (bufferAlloc evenly)).map
      (fun s => s.handed.map Handed.packet) = some [64, 1] := by decide +kernel
  obtain ⟨s, hs, hh⟩ := Option.map_eq_some_iff.mp h
  refine ⟨s, hs, Reach.start.run fullRingFailure hs, hh, fun hd => ?_⟩
  have := hd.order
  rw [hh] at this
  simp at this

end SnakeOs.Nic
