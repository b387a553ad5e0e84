import SnakeOs.Nic.TxFill
import SnakeOs.Lib.Slots

namespace SnakeOs.Nic
open Arch Lib

theorem Reclaim.store_all (r : Reclaim) (xs : List Nat) (hr : r.cells.length = r.count)
    (hx : r.count + xs.length ≤ maxSkbFrags) :
    xs.foldl Reclaim.store r = ⟨r.cells ++ xs, r.count + xs.length⟩ := by
  induction xs generalizing r with
  | nil => simp
  | cons x xs ih =>
    rw [List.length_cons] at hx
    have hroom : r.count < maxSkbFrags := by omega
    have hstore : r.store x = ⟨r.cells ++ [x], r.count + 1⟩ := by
      rw [Reclaim.store, if_pos hroom]
    rw [List.foldl_cons, hstore, ih _ (by simp [hr]) (by simp only; omega)]
    simp [Nat.add_comm, Nat.add_left_comm]

/-- As long as the array is long enough, what is loaded is what was stored. -/
theorem Reclaim.loads (xs : List Nat) (beyond : Nat → Option Nat)
    (hx : xs.length ≤ maxSkbFrags) :
    (List.range (xs.foldl Reclaim.store {}).count).filterMap
      ((xs.foldl Reclaim.store {}).load beyond) = xs := by
  rw [Reclaim.store_all {} xs rfl (by simpa using hx)]
  have hload : ∀ i ∈ List.range xs.length, Reclaim.load ⟨xs, xs.length⟩ beyond i = xs[i]? :=
    fun i hi => by rw [Reclaim.load, if_pos (Nat.lt_of_lt_of_le (List.mem_range.mp hi) hx)]
  simp only [List.nil_append, Nat.zero_add]
  rw [List.filterMap_congr hload, filterMap_getElem?]

/-- The skbs in the slots. -/
def Tx.holding (s : Tx) : List Nat := (List.range maxTfdNum).filterMap s.skb

/-- What the slots hold after a packet is filled in: it takes the place of what its slots
held. -/
theorem Filled.holding {s t : Tx} {p : Packet} (h : Filled s t p.skb p.parts)
    (hs : s.cur < maxTfdNum) (hN : p.frags.length < maxTfdNum) :
    (p.skb :: s.holding).Perm
      (t.holding ++ (window maxTfdNum s.cur (p.frags.length + 1)).filterMap s.skb) := by
  have hperm := range_perm_window hs (Nat.succ_le_of_lt hN)
  have hdis := hperm.nodup_iff.mp List.nodup_range
  have hrest : (window maxTfdNum ((s.cur + (p.frags.length + 1)) % maxTfdNum)
      (maxTfdNum - (p.frags.length + 1))).filterMap t.skb =
      (window maxTfdNum ((s.cur + (p.frags.length + 1)) % maxTfdNum)
        (maxTfdNum - (p.frags.length + 1))).filterMap s.skb := by
    refine List.filterMap_congr fun i hi => (h.outside i ?_).2
    rw [length_parts]
    exact fun hm => List.disjoint_of_nodup_append hdis hm hi
  have hnew : (window maxTfdNum s.cur (p.frags.length + 1)).filterMap t.skb = [p.skb] := by
    have hnone : (window maxTfdNum s.cur p.frags.length).filterMap t.skb = [] := by
      refine List.filterMap_eq_nil_iff.mpr fun i hi => ?_
      obtain ⟨k, hk, rfl⟩ := mem_window.mp hi
      rw [h.skbs k (by simp; omega), if_neg (by simp; omega)]
    have hlast := h.skbs p.frags.length (by simp)
    rw [if_pos (by simp)] at hlast
    simp [window_snoc, hnone, hlast]
  have hs' := hperm.filterMap s.skb
  have ht' := hperm.filterMap t.skb
  rw [List.filterMap_append] at hs' ht'
  rw [hrest, hnew] at ht'
  exact (hs'.cons p.skb).trans ((List.perm_append_comm.cons p.skb).trans
    (ht'.symm.append_right _))

/-- The hardware still owns one of the `r` descriptors from `idx` on when the scan gets to
it; `f` counts the looks before. -/
def StaysBusy (hw : Nat → Nat) : Nat → Nat → Nat → Tx → Prop
  | 0, _, _, _ => False
  | r + 1, f, idx, s =>
    ((completions (hw f) s).desc idx).cown = false ∨
      StaysBusy hw r (f + 1) (increaseCyclic idx) (completions (hw f) s)

instance StaysBusy.decidable (hw : Nat → Nat) :
    (r f idx : Nat) → (s : Tx) → Decidable (StaysBusy hw r f idx s)
  | 0, _, _, _ => .isFalse id
  | r + 1, f, idx, s =>
    have := StaysBusy.decidable hw r (f + 1) (increaseCyclic idx) (completions (hw f) s)
    inferInstanceAs (Decidable (_ ∨ _))

/-- The two states agree on who owns which descriptor. -/
def SameOwners (s t : Tx) : Prop := t.txsd = s.txsd ∧ ∀ i, (t.desc i).cown = (s.desc i).cown

theorem complete_sameOwners {s t : Tx} (h : SameOwners s t) :
    (complete s = none ∧ complete t = none) ∨
      ∃ s' t', complete s = some s' ∧ complete t = some t' ∧ SameOwners s' t' := by
  obtain ⟨hx, hc⟩ := h
  simp only [complete, hx, hc]
  split
  · refine .inr ⟨_, _, rfl, rfl, rfl, fun i => ?_⟩
    by_cases hi : i = s.txsd
    · simp [hi]
    · simp [Function.update_of_ne hi, hc]
  · exact .inl ⟨rfl, rfl⟩

theorem completions_sameOwners (n : Nat) {s t : Tx} (h : SameOwners s t) :
    SameOwners (completions n s) (completions n t) := by
  induction n generalizing s t with
  | zero => exact h
  | succ n ih =>
    simp only [completions]
    rcases complete_sameOwners h with ⟨hs, ht⟩ | ⟨s', t', hs, ht, h'⟩
    · rw [hs, ht]
      exact h
    · rw [hs, ht]
      exact ih h'

/-- Such a call returns `NETDEV_TX_BUSY`. -/
theorem StaysBusy.scan_none {hw : Nat → Nat} {nrFrags r idx : Nat} {free : Reclaim} {s t : Tx}
    (hr : r ≤ nrFrags + 1) (h : SameOwners s t)
    (hb : StaysBusy hw r (nrFrags + 1 - r) idx s) :
    (scan hw nrFrags r idx free t).2 = none := by
  induction r generalizing idx free s t with
  | zero => exact hb.elim
  | succ r ih =>
    rw [Nat.add_sub_add_right] at hb
    have h' := completions_sameOwners (hw (nrFrags - r)) h
    simp only [scan]
    split
    · rfl
    · rename_i hown
      rcases hb with hb | hb
      · exact absurd ((h'.2 idx).trans hb) hown
      · rw [show nrFrags - r + 1 = nrFrags + 1 - r by omega] at hb
        refine ih (by omega) ⟨h'.1, fun i => ?_⟩ hb
        exact ((mark_spec _ _ _ _).1 i).trans (h'.2 i)

/-- The array `skb_free` is long enough for what the call finds in its slots, or the call
is turned away. -/
def TxSafe (s : Tx) : TxAct → Prop
  | .complete => True
  | .send p env =>
    StaysBusy env.hw (p.frags.length + 1) 0 s.cur s ∨
      ((window maxTfdNum s.cur (p.frags.length + 1)).filterMap s.skb).length ≤ maxSkbFrags

instance (s : Tx) : (a : TxAct) → Decidable (TxSafe s a)
  | .complete => .isTrue trivial
  | .send _ _ => inferInstanceAs (Decidable (_ ∨ _))

/-- The invariant of the transmit ring. -/
structure TxInv (s : Tx) : Prop where
  flight : ∃ m, InFlight s s.cur m (s.accepted.flatMap Packet.views)
  held : Held s []
  perm : (s.accepted.map Packet.skb).Perm (s.holding ++ s.freed)

theorem TxInv.later {W : List Nat} {s t : Tx} (h : TxInv s) (hl : Later W s t)
    (hf : ∃ m, InFlight t s.cur m (s.accepted.flatMap Packet.views)) (hh : Held t []) :
    TxInv t where
  flight := by rwa [hl.cur, hl.accepted]
  held := hh
  perm := by
    have : t.holding = s.holding := by rw [Tx.holding, hl.skb, Tx.holding]
    rw [hl.accepted, hl.freed, this]
    exact h.perm

theorem complete_inv {s t : Tx} (h : TxInv s) (ht : complete s = some t) : TxInv t := by
  obtain ⟨m, hm⟩ := h.flight
  obtain ⟨m', -, hm'⟩ := complete_inFlight hm ht
  exact h.later (complete_later ht) ⟨m', hm'⟩ (complete_held h.held ht)

/-- Freeing skbs whose descriptors came back. -/
theorem Held.free {s : Tx} {xs : List Nat} (h : Held s [])
    (hx : ∀ x ∈ xs, ∃ i, Returned s.events i x) :
    Held { s with events := s.events ++ xs.map TxEvent.kfree, freed := s.freed ++ xs } [] := by
  refine ⟨fun i x hs => ?_, h.frees.append ?_ ?_⟩
  · obtain ⟨ho, hr⟩ := h.slots i x hs
    exact ⟨ho.append (by simp), fun hc hn => (hr hc hn).append _⟩
  · intro a b e he x hex
    obtain ⟨i, hi⟩ := he x hex
    exact ⟨i, hi.append b⟩
  · intro e he x hex
    obtain ⟨y, hy, rfl⟩ := List.mem_map.mp he
    exact TxEvent.kfree.inj hex ▸ hx y hy

theorem Scanned.own {t : Tx} {nrFrags : Nat} (h : Scanned t nrFrags (nrFrags + 1) t.cur) :
    ∀ i ∈ window maxTfdNum t.cur (nrFrags + 1), (t.desc i).cown = true := by
  intro i hi
  obtain ⟨k, hk, rfl⟩ := mem_window.mp hi
  exact (h k hk).1

theorem frags_lt {p : Packet} (h : p.frags.length ≤ maxSkbFrags) : p.frags.length < maxTfdNum :=
  Nat.lt_of_le_of_lt h (by decide)

/-- What a call does once it has found its descriptors. -/
structure Taken (s t : Tx) (p : Packet) : Prop where
  flight : ∃ m, InFlight t t.cur m (t.accepted.flatMap Packet.views)
  held : Held t []
  events : s.events <+: t.events
  freed : t.freed = s.freed
  accepted : t.accepted = s.accepted ++ [p]
  cur : t.cur = (s.cur + (p.frags.length + 1)) % maxTfdNum
  outside : ∀ i, i ∉ window maxTfdNum s.cur (p.frags.length + 1) → t.skb i = s.skb i
  holding : (p.skb :: s.holding).Perm
    (t.holding ++ (window maxTfdNum s.cur (p.frags.length + 1)).filterMap s.skb)
  owned : ∀ owner, Owned s owner 0 → Owned t (fun i =>
    if i ∈ window maxTfdNum s.cur (p.frags.length + 1) then some p.skb else owner i) 0

/-- Filling adds the new packet to what is accounted for: its last slot holds it. -/
theorem Filled.owned {s t : Tx} {p : Packet} {m : Nat} {sent : List View}
    {owner : Nat → Option Nat} (hfill : Filled s t p.skb p.parts)
    (hm : InFlight s s.cur m sent) (hm' : InFlight t s.cur m sent)
    (hscan : Scanned s p.frags.length (p.frags.length + 1) s.cur) (ho : Owned s owner 0) :
    Owned t (fun i => if i ∈ window maxTfdNum s.cur (p.frags.length + 1) then some p.skb
      else owner i) (p.frags.length + 1) := by
  rw [Owned, hm'.count, hfill.txsd]
  rw [Owned, hm.count] at ho
  have hplace (q : Nat) : (s.txsd + (m + q)) % maxTfdNum = (s.cur + q) % maxTfdNum := by
    rw [← hm.stop, Nat.mod_add_mod, Nat.add_assoc]
  have hold {k : Nat} (hk : k < m) : (s.txsd + k) % maxTfdNum ∉
      window maxTfdNum s.cur (p.frags.length + 1) := by
    intro hw
    have hbusy := hm.busy _ (mem_window.mpr ⟨k, hk, rfl⟩)
    rw [hscan.own _ hw] at hbusy
    cases hbusy
  intro k hk
  rcases Nat.lt_or_ge k m with hlt | hge
  · obtain ⟨l, hl, hkl, x, hx, hs⟩ := ho k hlt
    refine ⟨l, by omega, hkl, x, ?_, ?_⟩
    · rw [if_neg (hold hlt), hx]
    · have hout := hold (k := l) hl
      rw [← length_parts] at hout
      rw [(hfill.outside _ hout).2, hs]
  · obtain ⟨q, rfl⟩ : ∃ q, k = m + q := ⟨k - m, by omega⟩
    refine ⟨m + p.frags.length, by omega, by omega, p.skb, ?_, ?_⟩
    · rw [hplace, if_pos (mem_window.mpr ⟨q, by omega, rfl⟩)]
    · rw [hplace, hfill.skbs p.frags.length (by simp), if_pos (by simp)]

/-- The filled slots wait behind what the hardware has. -/
theorem filled_waiting {s t : Tx} {p : Packet} {m : Nat} {sent : List View}
    (hm : InFlight s s.cur m sent) (hfill : Filled s t p.skb p.parts)
    (hscan : Scanned s p.frags.length (p.frags.length + 1) s.cur) :
    InFlight t s.cur m sent ∧
      ∀ i ∈ window maxTfdNum s.cur (p.frags.length + 1), (t.desc i).cown = true := by
  refine ⟨hm.touch hfill.txsd hfill.cown fun i hi => ?_, fun i hi => ?_⟩
  · rw [(hfill.outside i fun hw => ?_).1]
    rw [length_parts] at hw
    rw [hscan.own i hw] at hi
    cases hi
  · exact (hfill.cown i).trans (hscan.own i hi)

theorem accept_taken {s : Tx} {p : Packet} {m : Nat} (env : SendEnv)
    (hm : InFlight s s.cur m (s.accepted.flatMap Packet.views)) (hh : Held s [])
    (hn : p.frags.length ≤ maxSkbFrags)
    (hscan : Scanned s p.frags.length (p.frags.length + 1) s.cur) :
    Taken s (acceptPacket s p env) p := by
  have hN := frags_lt hn
  have hfill := packet_filled (p := p) env.offset hm.lt hN
  have hviews := hfill.views hscan
  have hheld := hfill.held hh
  obtain ⟨hflight, hown⟩ := filled_waiting hm hfill hscan
  obtain ⟨⟨m', hm'⟩, hh', hg, hgive⟩ := give_spec (fun r => env.hw (p.frags.length + 1 + r)) _
    (Nat.succ_le_of_lt hN) hflight hheld hown
  rw [hviews] at hm'
  have hacc : (acceptPacket s p env).accepted = s.accepted ++ [p] := by
    rw [← hfill.accepted, ← hg.accepted]
    rfl
  have hcur : (acceptPacket s p env).cur = (s.cur + (p.frags.length + 1)) % maxTfdNum := by
    rw [← length_parts, ← hfill.cur, ← hg.cur]
    rfl
  refine ⟨⟨m', ?_⟩, hh'.touch rfl rfl fun _ => rfl, ?_, ?_, hacc, hcur, fun i hi => ?_, ?_,
    fun owner ho => hgive _ (hfill.owned hm hflight hscan ho)⟩
  · rw [hacc, List.flatMap_append, List.flatMap_singleton, hcur]
    exact hm'.touch rfl (fun _ => rfl) fun _ _ => rfl
  · refine List.IsPrefix.trans ?_ hg.events
    rw [hfill.put]
    exact List.prefix_append _ _
  · exact hg.freed.trans hfill.freed
  · rw [← length_parts] at hi
    exact (congrFun hg.skb i).trans (hfill.outside i hi).2
  · have hhold : (acceptPacket s p env).holding =
        (fillFrags p.skb env.offset p.frags (ethZlen - p.linear) (fillFirst s p)).holding := by
      simp only [Tx.holding, acceptPacket, hg.skb]
    rw [hhold]
    exact hfill.holding hm.lt hN

/-- A call keeps the invariant. -/
theorem sendPacket_inv {s : Tx} {p : Packet} {env : SendEnv} (h : TxInv s)
    (hn : p.frags.length ≤ maxSkbFrags) (hsafe : TxSafe s (.send p env)) :
    TxInv (sendPacket s p env).1 := by
  obtain ⟨m, hm⟩ := h.flight
  have hN := frags_lt hn
  obtain ⟨hf, hh, hl, hfree⟩ := scan_spec env.hw p.frags.length (p.frags.length + 1) {} hm.lt
    le_rfl (Nat.succ_le_of_lt hN) hm h.held
  have hbusy (hb : StaysBusy env.hw (p.frags.length + 1) 0 s.cur s) :
      (scan env.hw p.frags.length (p.frags.length + 1) s.cur {} s).2 = none :=
    StaysBusy.scan_none le_rfl ⟨rfl, fun _ => rfl⟩ (by rwa [Nat.sub_self])
  have hinv := h.later hl hf hh
  simp only [sendPacket]
  generalize scan env.hw p.frags.length (p.frags.length + 1) s.cur {} s = res at *
  obtain ⟨t, free⟩ := res
  cases free with
  | none => exact hinv
  | some free =>
    obtain ⟨rfl, hscan⟩ := hfree free rfl
    have hroom : ((window maxTfdNum s.cur (p.frags.length + 1)).filterMap s.skb).length ≤
        maxSkbFrags := by
      rcases hsafe with hb | hr
      · cases hbusy hb
      · exact hr
    simp only at hl hinv hscan
    rw [← hl.skb, ← hl.cur] at hroom
    rw [← hl.cur] at hscan
    obtain ⟨m', hm'⟩ := hinv.flight
    have htaken := accept_taken env hm' hinv.held hn hscan
    rw [← hl.skb, ← hl.cur]
    simp only [freeAll, Reclaim.loads _ _ hroom]
    refine ⟨?_, htaken.held.free fun x hx => ?_, ?_⟩
    · obtain ⟨m', hm'⟩ := htaken.flight
      exact ⟨m', hm'.touch rfl (fun _ => rfl) fun _ _ => rfl⟩
    · obtain ⟨i, hi, hix⟩ := List.mem_filterMap.mp hx
      obtain ⟨es, hes⟩ := htaken.events
      have hret := (hinv.held.slots i x hix).2 (hscan.own i hi) List.not_mem_nil
      exact ⟨i, hes ▸ hret.append es⟩
    · have hnew := (List.perm_append_singleton p.skb _).trans (hinv.perm.cons p.skb)
      have hall := hnew.trans (htaken.holding.append_right t.freed)
      rw [List.append_assoc] at hall
      simp only [htaken.accepted, htaken.freed, List.map_append, List.map_singleton]
      exact hall.trans (List.perm_append_comm.append_left _)

theorem txAlloc_inv : TxInv txAlloc where
  flight := ⟨0, by decide, by decide, by decide, by simp, by simp [txAlloc], by simp⟩
  held := ⟨fun i x hx => (Option.some_ne_none x hx.symm).elim, Justified.nil⟩
  perm := by decide

theorem TxReachable.inv {s : Tx} (h : Reach txStep TxSafe txAlloc s) : TxInv s := by
  refine h.invariant txAlloc_inv fun u a t hu hok ht => ?_
  cases a with
  | complete => exact complete_inv hu ht
  | send p env =>
    simp only [txStep] at ht
    split at ht
    · rename_i hn
      obtain rfl := Option.some.inj ht
      exact sendPacket_inv hu hn hok
    · cases ht

/-- The claim of the ring on the packets it has accepted. -/
structure TxSound (s : Tx) : Prop where
  /-- An skb accepted once is in exactly one slot and not freed, or in none and freed once. -/
  once : ∀ x, (s.accepted.map Packet.skb).count x = 1 →
    ((∃! i, i < maxTfdNum ∧ s.skb i = some x) ∧ s.freed.count x = 0) ∨
      ((∀ i < maxTfdNum, s.skb i ≠ some x) ∧ s.freed.count x = 1)
  /-- However often an skb is sent, each time is accounted for by a slot or a free. -/
  counted : ∀ x, (s.accepted.map Packet.skb).count x =
    ((List.range maxTfdNum).countP fun i => s.skb i = some x) + s.freed.count x
  after : Justified FreedAfter s.events
  segment : ∃ m ≤ maxTfdNum,
    (∀ i < maxTfdNum, (s.desc i).cown = false ↔ i ∈ window maxTfdNum s.txsd m) ∧
      (s.txsd + m) % maxTfdNum = s.cur ∧
      ((window maxTfdNum s.txsd m).map fun i => (s.desc i).view) <:+
        s.accepted.flatMap Packet.views

theorem TxInv.counted {s : Tx} (h : TxInv s) (x : Nat) : (s.accepted.map Packet.skb).count x =
    ((List.range maxTfdNum).countP fun i => s.skb i = some x) + s.freed.count x := by
  rw [h.perm.count_eq, List.count_append, Tx.holding, List.count_filterMap]
  congr 1
  exact List.countP_congr (by simp)

theorem TxInv.once {s : Tx} (h : TxInv s) {x : Nat}
    (hx : (s.accepted.map Packet.skb).count x = 1) :
    ((∃! i, i < maxTfdNum ∧ s.skb i = some x) ∧ s.freed.count x = 0) ∨
      ((∀ i < maxTfdNum, s.skb i ≠ some x) ∧ s.freed.count x = 1) := by
  rw [h.counted x, List.countP_eq_length_filter] at hx
  rcases Nat.add_eq_one_iff.mp hx with ⟨h0, h1⟩ | ⟨h1, h0⟩
  · refine .inr ⟨fun i hi hs => ?_, h1⟩
    have hnil := List.filter_eq_nil_iff.mp (List.length_eq_zero_iff.mp h0)
    exact hnil i (List.mem_range.mpr hi) (decide_eq_true hs)
  · obtain ⟨i, hi⟩ := List.length_eq_one_iff.mp h1
    have hmem (k : Nat) : k < maxTfdNum ∧ s.skb k = some x ↔ k = i := by
      rw [← List.mem_singleton (a := k), ← hi, List.mem_filter, List.mem_range, decide_eq_true_iff]
    exact .inl ⟨⟨i, (hmem i).mpr rfl, fun k hk => (hmem k).mp hk⟩, h0⟩

theorem InFlight.owned {s : Tx} {g m : Nat} {sent : List View} (h : InFlight s g m sent)
    {i : Nat} (hi : i < maxTfdNum) :
    (s.desc i).cown = false ↔ i ∈ window maxTfdNum s.txsd m := by
  refine ⟨fun hc => ?_, h.busy i⟩
  by_contra hn
  rw [h.idle i hi hn] at hc
  cases hc

/-- In every run whose calls never find more skbs than `skb_free` can hold, nothing is lost,
nothing is freed early or twice, and the hardware sees the packets in order. -/
theorem transmit_ring_sound {s : Tx} (h : Reach txStep TxSafe txAlloc s) : TxSound s := by
  have hinv := TxReachable.inv h
  obtain ⟨m, hm⟩ := hinv.flight
  refine ⟨fun x hx => hinv.once hx, hinv.counted, hinv.held.frees, m, hm.le, ?_, hm.stop, hm.views⟩
  exact fun i hi => hm.owned hi

/-- A packet of one linear part. -/
def smallPacket (skb : Nat) : Packet := ⟨skb, 0xC0100000, 100, 0, []⟩

/-- A packet of a linear part and `n` fragments. -/
def fragPacket (skb n : Nat) : Packet :=
  ⟨skb, 0xC0200000, 100 + 64 * n, 64 * n, List.replicate n ⟨0xC0300000, 0, 64⟩⟩

theorem transmit_ring_sound_partial : ∃ s,
    run txStep TxSafe [.send (smallPacket 0) {}, .send (fragPacket 1 2) {}, .complete, .complete]
      txAlloc = some s ∧ s.txsd = 2 ∧ s.cur = 4 ∧ TxSound s := by
  refine ⟨_, rfl, rfl, rfl, transmit_ring_sound ?_⟩
  exact Reach.start.run [.send (smallPacket 0) {}, .send (fragPacket 1 2) {}, .complete, .complete]
    rfl

/-- Packets of one descriptor fill the ring and are sent; then a packet with the most
fragments takes nineteen slots, each with an skb to free. -/
def mostFragments : List TxAct :=
  ((List.range 48).map fun x => .send (smallPacket x) {}) ++ List.replicate 48 .complete ++
    [.send (fragPacket 48 18) {}]

/-- The store of the nineteenth skb is past the end of `skb_free`. -/
theorem nineteenth_lost :
    ∃ s, run txStep anyStep mostFragments txAlloc = some s ∧ Reach txStep anyStep txAlloc s ∧
      (s.accepted.map Packet.skb).count 18 = 1 ∧ (∀ i < maxTfdNum, s.skb i ≠ some 18) ∧
      s.freed.count 18 = 0 ∧ ¬ TxSound s := by
  have h : (run txStep anyStep mostFragments txAlloc).map (fun s =>
      ((s.accepted.map Packet.skb).count 18, decide (∀ i < maxTfdNum, s.skb i ≠ some 18),
        s.freed.count 18)) = some (1, true, 0) := by decide +kernel
  obtain ⟨s, hs, hh⟩ := Option.map_eq_some_iff.mp h
  simp only [Prod.mk.injEq, decide_eq_true_eq] at hh
  obtain ⟨hacc, hslots, hfreed⟩ := hh
  refine ⟨s, hs, Reach.start.run mostFragments hs, hacc, hslots, hfreed, fun hsound => ?_⟩
  rcases hsound.once 18 hacc with ⟨⟨i, ⟨hi, hx⟩, _⟩, _⟩ | ⟨_, hf⟩
  · exact hslots i hi hx
  · rw [hfreed] at hf
    cases hf

end SnakeOs.Nic
