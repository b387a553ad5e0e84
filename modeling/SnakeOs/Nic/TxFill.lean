import SnakeOs.Nic.TxRing

namespace SnakeOs.Nic
open Arch Lib

/-- The buffers of the fragments. -/
def fragParts : List Frag → Int → List Part
  | [], _ => []
  | frag :: rest, paddingSize =>
    fragPart frag (paddingSize - frag.size.toNat) :: fragParts rest (paddingSize - frag.size.toNat)

@[simp]
theorem length_fragParts (frags : List Frag) (paddingSize : Int) :
    (fragParts frags paddingSize).length = frags.length := by
  induction frags generalizing paddingSize with
  | nil => rfl
  | cons frag rest ih => simp [fragParts, ih]

/-- The buffers of a packet: its linear part and its fragments. -/
def Packet.parts (p : Packet) : List Part :=
  firstPart p :: fragParts p.frags (ethZlen - p.linear)

/-- The descriptors a packet is sent with: the first is marked `fs`, the last `ls`. -/
def Packet.views (p : Packet) : List View :=
  p.parts.mapIdx fun k part => ⟨part.1, part.2, k = 0, k = p.frags.length⟩

/-- What filling the slots from `cur_index` on with the parts of an skb does. -/
structure Filled (s t : Tx) (skb : Nat) (parts : List Part) : Prop where
  txsd : t.txsd = s.txsd
  cur : t.cur = (s.cur + parts.length) % maxTfdNum
  accepted : t.accepted = s.accepted
  freed : t.freed = s.freed
  cown : ∀ i, (t.desc i).cown = (s.desc i).cown
  marks : ∀ i, (t.desc i).fs = (s.desc i).fs ∧ (t.desc i).ls = (s.desc i).ls
  outside : ∀ i, i ∉ window maxTfdNum s.cur parts.length →
    t.desc i = s.desc i ∧ t.skb i = s.skb i
  buffers : ∀ k (h : k < parts.length),
    (t.desc ((s.cur + k) % maxTfdNum)).dataPtr = parts[k].1 ∧
      (t.desc ((s.cur + k) % maxTfdNum)).length = parts[k].2
  skbs : ∀ k < parts.length,
    t.skb ((s.cur + k) % maxTfdNum) = if k + 1 = parts.length then some skb else none
  events : t.events = s.events ++
    if parts = [] then [] else [.put skb ((s.cur + (parts.length - 1)) % maxTfdNum)]

theorem Filled.nil {s : Tx} (skb : Nat) (hs : s.cur < maxTfdNum) : Filled s s skb [] where
  txsd := rfl
  cur := by simp [Nat.mod_eq_of_lt hs]
  accepted := rfl
  freed := rfl
  cown := fun _ => rfl
  marks := fun _ => ⟨rfl, rfl⟩
  outside := fun _ _ => ⟨rfl, rfl⟩
  buffers := fun k hk => absurd hk (Nat.not_lt_zero k)
  skbs := fun k hk => absurd hk (Nat.not_lt_zero k)
  events := by simp

theorem fillSlot_keep (s : Tx) (skb : Nat) (last : Bool) (part : Part) (sync : U32 × Nat)
    (i : Nat) : ((fillSlot s skb last part sync).desc i).cown = (s.desc i).cown ∧
      ((fillSlot s skb last part sync).desc i).fs = (s.desc i).fs ∧
      ((fillSlot s skb last part sync).desc i).ls = (s.desc i).ls := by
  by_cases h : i = s.cur
  · subst h
    simp [fillSlot]
  · simp [fillSlot, Function.update_of_ne h]

/-- One more part in front. -/
theorem Filled.cons {s t : Tx} {skb : Nat} {last : Bool} {part : Part} {rest : List Part}
    {sync : U32 × Nat} (hs : s.cur < maxTfdNum) (hN : rest.length < maxTfdNum)
    (hlast : last = decide (rest = [])) (h : Filled (fillSlot s skb last part sync) t skb rest) :
    Filled s t skb (part :: rest) := by
  subst hlast
  have hnot : s.cur ∉ window maxTfdNum ((s.cur + 1) % maxTfdNum) rest.length :=
    window_start_not_mem hs hN
  have hcur : (fillSlot s skb (rest = []) part sync).cur = (s.cur + 1) % maxTfdNum :=
    increaseCyclic_eq hs
  have hplace (k : Nat) : ((s.cur + 1) % maxTfdNum + k) % maxTfdNum =
      (s.cur + (k + 1)) % maxTfdNum := by
    rw [Nat.mod_add_mod, Nat.add_assoc, Nat.add_comm 1 k]
  obtain ⟨hdesc, hskb⟩ := h.outside s.cur (hcur ▸ hnot)
  refine ⟨h.txsd, ?_, h.accepted, h.freed, ?_, ?_, ?_, ?_, ?_, ?_⟩
  · rw [h.cur, hcur, hplace]
    rfl
  · intro i
    exact (h.cown i).trans (fillSlot_keep ..).1
  · intro i
    obtain ⟨-, hfs, hls⟩ := fillSlot_keep s skb (rest = []) part sync i
    exact ⟨(h.marks i).1.trans hfs, (h.marks i).2.trans hls⟩
  · intro i hi
    rw [List.length_cons, window_cons hs] at hi
    obtain ⟨hne, hi⟩ := not_or.mp (List.mem_cons.not.mp hi)
    obtain ⟨hd, hk⟩ := h.outside i (hcur ▸ hi)
    rw [hd, hk]
    simp only [fillSlot, Function.update_of_ne hne, and_self]
  · intro k hk
    cases k with
    | zero =>
      rw [Nat.add_zero, Nat.mod_eq_of_lt hs, hdesc]
      simp [fillSlot]
    | succ k =>
      have := h.buffers k (Nat.lt_of_succ_lt_succ hk)
      rwa [hcur, hplace] at this
  · intro k hk
    cases k with
    | zero =>
      rw [Nat.add_zero, Nat.mod_eq_of_lt hs, hskb]
      cases rest <;> simp [fillSlot]
    | succ k =>
      have := h.skbs k (Nat.lt_of_succ_lt_succ hk)
      rw [hcur, hplace] at this
      simpa using this
  · rw [h.events, hcur]
    cases rest with
    | nil => simp [fillSlot, Nat.mod_eq_of_lt hs]
    | cons q rest => simp [fillSlot, hplace]

theorem fragParts_eq_nil {frags : List Frag} {paddingSize : Int} :
    fragParts frags paddingSize = [] ↔ frags = [] := by
  rw [← List.length_eq_zero_iff, length_fragParts, List.length_eq_zero_iff]

theorem fillFrags_filled (skb : Nat) (offset : U32) (frags : List Frag) (paddingSize : Int)
    {s : Tx} (hs : s.cur < maxTfdNum) (hN : frags.length ≤ maxTfdNum) :
    Filled s (fillFrags skb offset frags paddingSize s) skb (fragParts frags paddingSize) := by
  induction frags generalizing paddingSize s with
  | nil => exact Filled.nil skb hs
  | cons frag rest ih =>
    refine Filled.cons hs ?_ ?_ (ih _ (increaseCyclic_lt hs) (Nat.le_of_succ_le hN))
    · rw [length_fragParts]
      exact hN
    · simp only [fragParts_eq_nil]

/-- The slots written by a call. -/
theorem packet_filled {s : Tx} {p : Packet} (offset : U32) (hs : s.cur < maxTfdNum)
    (hN : p.frags.length < maxTfdNum) :
    Filled s (fillFrags p.skb offset p.frags (ethZlen - p.linear) (fillFirst s p)) p.skb
      p.parts := by
  refine Filled.cons hs ?_ ?_
    (fillFrags_filled p.skb offset p.frags _ (increaseCyclic_lt hs) (Nat.le_of_lt hN))
  · rw [length_fragParts]
    exact hN
  · simp only [fragParts_eq_nil]

@[simp]
theorem length_parts (p : Packet) : p.parts.length = p.frags.length + 1 := by simp [Packet.parts]

/-- After scan and fill the descriptors say what the packet is. -/
theorem Filled.views {s t : Tx} {p : Packet} (h : Filled s t p.skb p.parts)
    (hm : Scanned s p.frags.length (p.frags.length + 1) s.cur) :
    ((window maxTfdNum s.cur (p.frags.length + 1)).map fun i => (t.desc i).view) = p.views := by
  refine List.ext_getElem (by simp [Packet.views]) fun k hk hk' => ?_
  simp only [List.length_map, length_window] at hk
  obtain ⟨-, hfs, hls⟩ := hm k hk
  obtain ⟨hptr, hlen⟩ := h.buffers k (by rwa [length_parts])
  obtain ⟨hfs', hls'⟩ := h.marks ((s.cur + k) % maxTfdNum)
  simp only [Nat.sub_self, Nat.zero_add] at hfs hls
  simp only [List.getElem_map, window, List.getElem_range, Packet.views, List.getElem_mapIdx,
    TxDesc.view, hptr, hlen, hfs', hls', hfs, hls]

/-- The last slot of a packet. -/
def Packet.lastSlot (p : Packet) (cur : Nat) : Nat := (cur + p.frags.length) % maxTfdNum

theorem Filled.put {s t : Tx} {p : Packet} (h : Filled s t p.skb p.parts) :
    t.events = s.events ++ [.put p.skb (p.lastSlot s.cur)] := by
  rw [h.events, length_parts, Nat.add_sub_cancel, if_neg (by simp [Packet.parts]),
    Packet.lastSlot]

/-- Of the slots filled only the last holds an skb. -/
theorem Filled.holds {s t : Tx} {p : Packet} (h : Filled s t p.skb p.parts) {i x : Nat}
    (hi : i ∈ window maxTfdNum s.cur (p.frags.length + 1)) (hx : t.skb i = some x) :
    i = p.lastSlot s.cur ∧ x = p.skb := by
  obtain ⟨k, hk, rfl⟩ := mem_window.mp hi
  rw [h.skbs k (by rwa [length_parts])] at hx
  split at hx
  · rename_i hlast
    rw [length_parts] at hlast
    exact ⟨by rw [Packet.lastSlot, Nat.succ.inj hlast], (Option.some.inj hx).symm⟩
  · cases hx

theorem lastSlot_mem (p : Packet) (cur : Nat) :
    p.lastSlot cur ∈ window maxTfdNum cur (p.frags.length + 1) := by
  rw [window_snoc]
  exact List.mem_append_right _ List.mem_cons_self

/-- The new slots are accounted for by the new event, the others as before. -/
theorem Filled.held {s t : Tx} {p : Packet} (h : Filled s t p.skb p.parts) (hh : Held s []) :
    Held t (window maxTfdNum s.cur (p.frags.length + 1)) := by
  have hw : window maxTfdNum s.cur p.parts.length =
      window maxTfdNum s.cur (p.frags.length + 1) := by rw [length_parts]
  refine ⟨fun i x hx => ?_, h.put ▸ hh.frees.snoc fun x hx => by cases hx⟩
  rw [h.put]
  by_cases hi : i ∈ window maxTfdNum s.cur (p.frags.length + 1)
  · obtain ⟨rfl, rfl⟩ := h.holds hi hx
    exact ⟨⟨s.events, [], rfl, by simp⟩, fun _ hn => absurd hi hn⟩
  · obtain ⟨hdesc, hskb⟩ := h.outside i (hw ▸ hi)
    obtain ⟨ho, hr⟩ := hh.slots i x (hskb ▸ hx)
    have hne : i ≠ p.lastSlot s.cur := fun e => hi (e ▸ lastSlot_mem p s.cur)
    refine ⟨ho.append fun y hy => ?_, fun hc _ => (hr (hdesc ▸ hc) List.not_mem_nil).append _⟩
    exact hne (TxEvent.put.inj (List.mem_singleton.mp hy)).2

/-- Handing over the descriptor at the end of what the hardware has. -/
theorem Held.handOver {s : Tx} {idx r : Nat} (hidx : idx < maxTfdNum)
    (h : Held s (window maxTfdNum idx (r + 1))) :
    Held (handOver s idx) (window maxTfdNum ((idx + 1) % maxTfdNum) r) := by
  refine ⟨fun i x hx => ?_, h.frees⟩
  obtain ⟨ho, hr⟩ := h.slots i x hx
  refine ⟨ho, fun hc hn => ?_⟩
  by_cases hi : i = idx
  · rw [hi, (handOver_self s idx).1] at hc
    cases hc
  · rw [handOver_of_ne s hi] at hc
    refine hr hc ?_
    rw [window_cons hidx]
    exact fun hm => (List.mem_cons.mp hm).elim hi hn

/-- What the hardware and the driver's handing over leave alone. -/
structure Given (s t : Tx) : Prop where
  skb : t.skb = s.skb
  cur : t.cur = s.cur
  accepted : t.accepted = s.accepted
  freed : t.freed = s.freed
  events : s.events <+: t.events

theorem give_spec (hw : Nat → Nat) (r : Nat) {idx : Nat} {s : Tx} {m : Nat} {sent : List View}
    (hr : r ≤ maxTfdNum) (h : InFlight s idx m sent) (hh : Held s (window maxTfdNum idx r))
    (hc : ∀ i ∈ window maxTfdNum idx r, (s.desc i).cown = true) :
    (∃ m', InFlight (give hw r idx s) ((idx + r) % maxTfdNum) m'
        (sent ++ (window maxTfdNum idx r).map fun i => (s.desc i).view)) ∧
      Held (give hw r idx s) [] ∧ Given s (give hw r idx s) ∧
      ∀ owner, Owned s owner r → Owned (give hw r idx s) owner 0 := by
  induction r generalizing idx s m sent with
  | zero =>
    refine ⟨⟨m, ?_⟩, hh, ⟨rfl, rfl, rfl, rfl, List.prefix_refl _⟩, fun _ ho => ho⟩
    simpa [give, Nat.mod_eq_of_lt h.lt] using h
  | succ r ih =>
    obtain ⟨⟨m₁, h₁⟩, hh₁, hl⟩ := completions_spec (hw r) h hh
    simp only [give]
    generalize completions (hw r) s = s₁ at h₁ hh₁ hl ⊢
    have hidx := h.lt
    have hnot := window_start_not_mem (n := r) hidx hr
    rw [window_cons hidx] at hc ⊢
    have hown := hl.own idx (hc idx List.mem_cons_self)
    have hdesc (i : Nat) (hi : i ∈ window maxTfdNum ((idx + 1) % maxTfdNum) r) :
        (handOver s₁ idx).desc i = s₁.desc i :=
      handOver_of_ne s₁ fun e => hnot (e ▸ hi)
    rw [increaseCyclic_eq hidx]
    obtain ⟨⟨m₃, h₃⟩, hh₃, hg, ho₃⟩ := ih (Nat.le_of_succ_le hr) (h₁.handOver hown)
      (hh₁.handOver hidx) fun i hi => by
        rw [hdesc i hi]
        exact hl.own i (hc i (List.mem_cons_of_mem _ hi))
    refine ⟨⟨m₃, ?_⟩, hh₃, ?_, fun owner ho => ho₃ owner ?_⟩
    · have hviews : (window maxTfdNum ((idx + 1) % maxTfdNum) r).map (fun i =>
          ((handOver s₁ idx).desc i).view) =
          (window maxTfdNum ((idx + 1) % maxTfdNum) r).map fun i => (s.desc i).view :=
        List.map_congr_left fun i hi => by rw [hdesc i hi, hl.view i List.not_mem_nil]
      rw [hviews, hl.view idx List.not_mem_nil, List.append_assoc, Nat.mod_add_mod,
        Nat.add_assoc, Nat.add_comm 1 r] at h₃
      exact h₃
    · exact ⟨hg.skb.trans hl.skb, hg.cur.trans hl.cur, hg.accepted.trans hl.accepted,
        hg.freed.trans hl.freed, hl.events.trans hg.events⟩
    · have ho₁ := ho.later h h₁ hl
      rw [Owned, h₁.count] at ho₁
      rw [Owned, (h₁.handOver hown).count, Nat.add_assoc, Nat.add_comm 1 r]
      exact ho₁

end SnakeOs.Nic
