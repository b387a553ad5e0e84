import SnakeOs.Nic.Transmit
import SnakeOs.Lib.Ring
import SnakeOs.Lib.Trace

namespace SnakeOs.Nic
open Arch Lib

theorem increaseCyclic_eq {i : Nat} (h : i < maxTfdNum) :
    increaseCyclic i = (i + 1) % maxTfdNum := by
  simp only [increaseCyclic]
  split
  · rw [show i + 1 = maxTfdNum by omega, Nat.mod_self]
  · rw [Nat.mod_eq_of_lt (by omega)]

theorem increaseCyclic_lt {i : Nat} (h : i < maxTfdNum) : increaseCyclic i < maxTfdNum := by
  rw [increaseCyclic_eq h]
  exact Nat.mod_lt _ (by decide)

/-- The hardware owns the `m` descriptors from `txsd` up to `g`, and what they say is the
end of `sent`. -/
structure InFlight (s : Tx) (g m : Nat) (sent : List View) : Prop where
  le : m ≤ maxTfdNum
  txsd : s.txsd < maxTfdNum
  stop : (s.txsd + m) % maxTfdNum = g
  busy : ∀ i ∈ window maxTfdNum s.txsd m, (s.desc i).cown = false
  idle : ∀ i < maxTfdNum, i ∉ window maxTfdNum s.txsd m → (s.desc i).cown = true
  views : ((window maxTfdNum s.txsd m).map fun i => (s.desc i).view) <:+ sent

theorem InFlight.lt {s : Tx} {g m : Nat} {sent : List View} (h : InFlight s g m sent) :
    g < maxTfdNum := h.stop ▸ Nat.mod_lt _ (by decide)

/-- A free descriptor at the end leaves room. -/
theorem InFlight.room {s : Tx} {g m : Nat} {sent : List View} (h : InFlight s g m sent)
    (hg : (s.desc g).cown = true) : m < maxTfdNum := by
  refine lt_of_le_of_ne h.le fun hm => ?_
  have hfull : g ∈ window maxTfdNum s.txsd m := by
    rw [hm]
    exact mem_window_full h.txsd h.lt
  have := h.busy g hfull
  rw [hg] at this
  cases this

/-- Changes to descriptors the driver owns, other than handing them over. -/
theorem InFlight.touch {s t : Tx} {g m : Nat} {sent : List View} (h : InFlight s g m sent)
    (hx : t.txsd = s.txsd) (hc : ∀ i, (t.desc i).cown = (s.desc i).cown)
    (hd : ∀ i, (s.desc i).cown = false → (t.desc i).view = (s.desc i).view) :
    InFlight t g m sent := by
  refine ⟨h.le, hx ▸ h.txsd, hx ▸ h.stop, ?_, ?_, ?_⟩
  · intro i hi
    rw [hc]
    exact h.busy i (hx ▸ hi)
  · intro i hi hn
    rw [hc]
    exact h.idle i hi (hx ▸ hn)
  · have : (window maxTfdNum t.txsd m).map (fun i => (t.desc i).view) =
        (window maxTfdNum s.txsd m).map fun i => (s.desc i).view := by
      rw [hx]
      exact List.map_congr_left fun i hi => hd i (h.busy i hi)
    rw [this]
    exact h.views

/-- What a completion does: the oldest descriptor of the hardware becomes the driver's. -/
theorem complete_inFlight {s t : Tx} {g m : Nat} {sent : List View} (h : InFlight s g m sent)
    (ht : complete s = some t) : ∃ m', m = m' + 1 ∧ InFlight t g m' sent := by
  simp only [complete] at ht
  split at ht
  · rename_i hown
    obtain rfl := Option.some.inj ht
    have hpos : 0 < m := by
      refine Nat.pos_of_ne_zero fun h0 => ?_
      have := h.idle s.txsd h.txsd (by simp [h0])
      rw [hown] at this
      cases this
    obtain ⟨m, rfl⟩ : ∃ m', m = m' + 1 := ⟨m - 1, by omega⟩
    have hle := h.le
    have hnot : s.txsd ∉ window maxTfdNum ((s.txsd + 1) % maxTfdNum) m :=
      window_start_not_mem h.txsd (by omega)
    refine ⟨m, rfl, by omega, ?_, ?_, ?_, ?_, ?_⟩
    · exact increaseCyclic_lt h.txsd
    · simp only [increaseCyclic_eq h.txsd, Nat.mod_add_mod]
      rw [← h.stop]
      congr 1
      omega
    · intro i hi
      simp only [increaseCyclic_eq h.txsd] at hi
      have hne : i ≠ s.txsd := fun e => hnot (e ▸ hi)
      simp only [Function.update_of_ne hne]
      exact h.busy i (window_cons h.txsd ▸ List.mem_cons_of_mem _ hi)
    · intro i hi hn
      simp only [increaseCyclic_eq h.txsd] at hn
      by_cases he : i = s.txsd
      · simp [he]
      · simp only [Function.update_of_ne he]
        refine h.idle i hi fun hm => ?_
        rcases List.mem_cons.mp (window_cons h.txsd ▸ hm) with hm | hm
        · exact he hm
        · exact hn hm
    · have heq : (window maxTfdNum ((s.txsd + 1) % maxTfdNum) m).map (fun i =>
          (Function.update s.desc s.txsd { s.desc s.txsd with cown := true } i).view) =
          (window maxTfdNum ((s.txsd + 1) % maxTfdNum) m).map fun i => (s.desc i).view :=
        List.map_congr_left fun i hi => by
          rw [Function.update_of_ne fun e : i = s.txsd => hnot (e ▸ hi)]
      simp only [increaseCyclic_eq h.txsd, heq]
      have := h.views
      rw [window_cons h.txsd, List.map_cons] at this
      exact (List.suffix_cons _ _).trans this
  · cases ht

theorem handOver_self (s : Tx) (i : Nat) : ((handOver s i).desc i).cown = false ∧
    ((handOver s i).desc i).view = (s.desc i).view := by
  simp [handOver, TxDesc.view]

theorem handOver_of_ne (s : Tx) {i g : Nat} (h : i ≠ g) : (handOver s g).desc i = s.desc i :=
  Function.update_of_ne h _ _

/-- Handing over the descriptor behind the last one of the hardware. -/
theorem InFlight.handOver {s : Tx} {g m : Nat} {sent : List View} (h : InFlight s g m sent)
    (hg : (s.desc g).cown = true) :
    InFlight (handOver s g) ((g + 1) % maxTfdNum) (m + 1) (sent ++ [(s.desc g).view]) := by
  have hm := h.room hg
  have hnot : g ∉ window maxTfdNum s.txsd m := h.stop ▸ window_end_not_mem hm
  have hsnoc : window maxTfdNum (Nic.handOver s g).txsd (m + 1) =
      window maxTfdNum s.txsd m ++ [g] := by
    rw [window_snoc]
    congr 2
    exact h.stop
  refine ⟨hm, h.txsd, ?_, ?_, ?_, ?_⟩
  · rw [← h.stop, Nat.mod_add_mod, Nat.add_assoc]
    rfl
  · intro i hi
    by_cases he : i = g
    · rw [he]
      exact (handOver_self s g).1
    · rw [handOver_of_ne s he]
      rcases List.mem_append.mp (hsnoc ▸ hi) with hi | hi
      · exact h.busy i hi
      · exact absurd (List.mem_singleton.mp hi) he
  · intro i hi hn
    have hn := fun hm => hn (hsnoc ▸ hm)
    have he : i ≠ g := fun e => hn (List.mem_append_right _ (by simp [e]))
    rw [handOver_of_ne s he]
    exact h.idle i hi fun hm => hn (List.mem_append_left _ hm)
  · have heq : (window maxTfdNum s.txsd m).map (fun i => ((Nic.handOver s g).desc i).view) =
        (window maxTfdNum s.txsd m).map fun i => (s.desc i).view :=
      List.map_congr_left fun i hi => by
        rw [handOver_of_ne s fun e : i = g => hnot (e ▸ hi)]
    obtain ⟨pre, hpre⟩ := h.views
    refine ⟨pre, ?_⟩
    rw [hsnoc, List.map_append, heq, ← hpre, List.append_assoc]
    simp only [List.map_cons, List.map_nil, (handOver_self s g).2]

/-- Slot `i` was last filled with `x`. -/
def Occupied (log : List TxEvent) (i x : Nat) : Prop :=
  ∃ a b, log = a ++ .put x i :: b ∧ ∀ y, .put y i ∉ b

/-- The hardware gave descriptor `i` back while `x` was in its slot. -/
def Returned (log : List TxEvent) (i x : Nat) : Prop :=
  ∃ a b c, log = a ++ .put x i :: b ++ .done i :: c ∧ ∀ y, .put y i ∉ b

theorem Occupied.append {log es : List TxEvent} {i x : Nat} (h : Occupied log i x)
    (hes : ∀ y, .put y i ∉ es) : Occupied (log ++ es) i x := by
  obtain ⟨a, b, rfl, hb⟩ := h
  refine ⟨a, b ++ es, by simp, fun y hy => ?_⟩
  rcases List.mem_append.mp hy with hy | hy
  · exact hb y hy
  · exact hes y hy

theorem Occupied.returned {log : List TxEvent} {i x : Nat} (h : Occupied log i x) :
    Returned (log ++ [.done i]) i x := by
  obtain ⟨a, b, rfl, hb⟩ := h
  exact ⟨a, b, [], by simp, hb⟩

theorem Returned.append {log : List TxEvent} {i x : Nat} (h : Returned log i x)
    (es : List TxEvent) : Returned (log ++ es) i x := by
  obtain ⟨a, b, c, rfl, hb⟩ := h
  exact ⟨a, b, c ++ es, by simp, hb⟩

/-- An skb is freed only after its descriptor came back. -/
def FreedAfter (log : List TxEvent) (e : TxEvent) : Prop :=
  ∀ x, e = .kfree x → ∃ i, Returned log i x

/-- The slots are as the log says; `ex` lists the descriptors filled but not handed over. -/
structure Held (s : Tx) (ex : List Nat) : Prop where
  slots : ∀ i x, s.skb i = some x → Occupied s.events i x ∧
    ((s.desc i).cown = true → i ∉ ex → Returned s.events i x)
  frees : Justified FreedAfter s.events

theorem complete_held {s t : Tx} {ex : List Nat} (h : Held s ex) (ht : complete s = some t) :
    Held t ex := by
  simp only [complete] at ht
  split at ht
  · obtain rfl := Option.some.inj ht
    refine ⟨fun i x hx => ?_, h.frees.snoc fun x hx => by cases hx⟩
    obtain ⟨ho, hr⟩ := h.slots i x hx
    refine ⟨ho.append (by simp), fun hc hn => ?_⟩
    by_cases hi : i = s.txsd
    · subst hi
      exact ho.returned
    · simp only [Function.update_of_ne hi] at hc
      exact (hr hc hn).append _
  · cases ht

theorem Held.touch {s t : Tx} {ex : List Nat} (h : Held s ex) (hs : t.skb = s.skb)
    (he : t.events = s.events) (hc : ∀ i, (t.desc i).cown = (s.desc i).cown) : Held t ex := by
  refine ⟨fun i x hx => ?_, he ▸ h.frees⟩
  rw [he, hc]
  exact h.slots i x (hs ▸ hx)

/-- What the hardware and the scan of the descriptors in `W` leave alone. -/
structure Later (W : List Nat) (s t : Tx) : Prop where
  skb : t.skb = s.skb
  cur : t.cur = s.cur
  accepted : t.accepted = s.accepted
  freed : t.freed = s.freed
  events : s.events <+: t.events
  view : ∀ i, i ∉ W → (t.desc i).view = (s.desc i).view
  own : ∀ i, (s.desc i).cown = true → (t.desc i).cown = true

theorem Later.refl (W : List Nat) (s : Tx) : Later W s s :=
  ⟨rfl, rfl, rfl, rfl, List.prefix_refl _, fun _ _ => rfl, fun _ h => h⟩

theorem Later.trans {W W' : List Nat} {s t u : Tx} (h : Later W s t) (h' : Later W' t u)
    (hw : W ⊆ W') : Later W' s u where
  skb := h'.skb.trans h.skb
  cur := h'.cur.trans h.cur
  accepted := h'.accepted.trans h.accepted
  freed := h'.freed.trans h.freed
  events := h.events.trans h'.events
  view := fun i hi => (h'.view i hi).trans (h.view i fun hm => hi (hw hm))
  own := fun i hi => h'.own i (h.own i hi)

theorem Later.weaken {W W' : List Nat} {s t : Tx} (h : Later W s t) (hw : W ⊆ W') :
    Later W' s t := { h with view := fun i hi => h.view i fun hm => hi (hw hm) }

theorem complete_later {s t : Tx} (ht : complete s = some t) : Later [] s t := by
  simp only [complete] at ht
  split at ht
  · obtain rfl := Option.some.inj ht
    refine ⟨rfl, rfl, rfl, rfl, List.prefix_append _ _, fun i _ => ?_, fun i hi => ?_⟩
    · by_cases he : i = s.txsd
      · simp [he, TxDesc.view]
      · simp only [Function.update_of_ne he]
    · by_cases he : i = s.txsd
      · simp [he]
      · simpa only [Function.update_of_ne he] using hi
  · cases ht

/-- How many descriptors the hardware has. -/
def inHardware (s : Tx) : Nat :=
  (List.range maxTfdNum).countP fun i => (s.desc i).cown = false

theorem InFlight.count {s : Tx} {g m : Nat} {sent : List View} (h : InFlight s g m sent) :
    inHardware s = m := by
  have hperm : ((List.range maxTfdNum).filter fun i => (s.desc i).cown = false).Perm
      (window maxTfdNum s.txsd m) := by
    refine (List.perm_ext_iff_of_nodup (List.nodup_range.filter _) (window_nodup h.le)).mpr
      fun i => ?_
    simp only [List.mem_filter, List.mem_range, decide_eq_true_eq]
    refine ⟨fun hi => ?_, fun hi => ⟨?_, h.busy i hi⟩⟩
    · by_contra hn
      rw [h.idle i hi.1 hn] at hi
      cases hi.2
    · obtain ⟨k, _, rfl⟩ := mem_window.mp hi
      exact Nat.mod_lt _ (by decide)
  rw [inHardware, List.countP_eq_length_filter, hperm.length_eq, length_window]

/-- Each descriptor from `txsd` on that the hardware has, or gets as one of the next `n`,
points to data of an skb that its own slot or a later one of them holds. -/
def Owned (s : Tx) (owner : Nat → Option Nat) (n : Nat) : Prop :=
  ∀ k < inHardware s + n, ∃ l < inHardware s + n, k ≤ l ∧ ∃ x,
    owner ((s.txsd + k) % maxTfdNum) = some x ∧ s.skb ((s.txsd + l) % maxTfdNum) = some x

/-- The hardware gives descriptors back in order, so the skb of one it still has is still
held. -/
theorem Owned.later {s t : Tx} {owner : Nat → Option Nat} {g m m' n : Nat} {sent : List View}
    {W : List Nat} (ho : Owned s owner n) (h : InFlight s g m sent) (h' : InFlight t g m' sent)
    (hl : Later W s t) : Owned t owner n := by
  have hle : m' ≤ m := by
    rw [← h.count, ← h'.count]
    refine List.countP_mono_left fun i _ hi => ?_
    simp only [decide_eq_true_eq] at hi ⊢
    by_contra hn
    rw [hl.own i (by simpa using hn)] at hi
    cases hi
  have hplace (k : Nat) : (t.txsd + k) % maxTfdNum = (s.txsd + (k + (m - m'))) % maxTfdNum := by
    have hg := h.stop.trans h'.stop.symm
    simp only [maxTfdNum] at hg ⊢
    omega
  rw [Owned, h'.count]
  rw [Owned, h.count] at ho
  intro k hk
  obtain ⟨l, hl', hkl, x, hx, hs⟩ := ho (k + (m - m')) (by omega)
  refine ⟨l - (m - m'), by omega, by omega, x, ?_, ?_⟩
  · rw [hplace, hx]
  · rw [hplace, hl.skb, Nat.sub_add_cancel (by omega), hs]

theorem completions_spec (n : Nat) {s : Tx} {g m : Nat} {sent : List View} {ex : List Nat}
    (h : InFlight s g m sent) (hh : Held s ex) :
    (∃ m', InFlight (completions n s) g m' sent) ∧ Held (completions n s) ex ∧
      Later [] s (completions n s) := by
  induction n generalizing s m with
  | zero => exact ⟨⟨m, h⟩, hh, Later.refl [] s⟩
  | succ n ih =>
    simp only [completions]
    cases ht : complete s with
    | none => exact ⟨⟨m, h⟩, hh, Later.refl [] s⟩
    | some t =>
      obtain ⟨m', _, h'⟩ := complete_inFlight h ht
      obtain ⟨hi, hh', hl⟩ := ih h' (complete_held hh ht)
      exact ⟨hi, hh', (complete_later ht).trans hl (List.Subset.refl _)⟩

theorem mark_spec (s : Tx) (idx : Nat) (first last : Bool) :
    (∀ i, ((mark s idx first last).desc i).cown = (s.desc i).cown) ∧
      ∀ i, i ≠ idx → (mark s idx first last).desc i = s.desc i := by
  refine ⟨fun i => ?_, fun i hi => Function.update_of_ne hi _ _⟩
  by_cases h : i = idx
  · simp [mark, h]
  · simp [mark, Function.update_of_ne h]

theorem mark_later (s : Tx) (idx : Nat) (first last : Bool) :
    Later [idx] s (mark s idx first last) := by
  obtain ⟨hc, hd⟩ := mark_spec s idx first last
  refine ⟨rfl, rfl, rfl, rfl, List.prefix_refl _, fun i hi => ?_, fun i hi => (hc i).trans hi⟩
  rw [hd i fun e => hi (List.mem_singleton.mpr e)]

/-- The state of the descriptors after a complete scan of `r` of them from `idx` on. -/
def Scanned (t : Tx) (nrFrags r idx : Nat) : Prop :=
  ∀ k < r, (t.desc ((idx + k) % maxTfdNum)).cown = true ∧
    (t.desc ((idx + k) % maxTfdNum)).fs = decide (nrFrags + 1 - r + k = 0) ∧
    (t.desc ((idx + k) % maxTfdNum)).ls = decide (nrFrags + 1 - r + k = nrFrags)

theorem Scanned.cons {t : Tx} {nrFrags r idx : Nat} (hidx : idx < maxTfdNum)
    (hr : r ≤ nrFrags) (hc : (t.desc idx).cown = true)
    (hv : (t.desc idx).view.fs = decide (nrFrags - r = 0) ∧
      (t.desc idx).view.ls = decide (nrFrags - r = nrFrags))
    (h : Scanned t nrFrags r ((idx + 1) % maxTfdNum)) : Scanned t nrFrags (r + 1) idx := by
  intro k hk
  cases k with
  | zero =>
    rw [Nat.add_zero, Nat.mod_eq_of_lt hidx, show nrFrags + 1 - (r + 1) + 0 = nrFrags - r by omega]
    exact ⟨hc, hv⟩
  | succ k =>
    have := h k (by omega)
    rwa [Nat.mod_add_mod, show idx + 1 + k = idx + (k + 1) by omega,
      show nrFrags + 1 - r + k = nrFrags + 1 - (r + 1) + (k + 1) by omega] at this

theorem scan_spec (hw : Nat → Nat) (nrFrags r : Nat) {idx : Nat} (free : Reclaim) {s : Tx}
    {g m : Nat} {sent : List View} (hidx : idx < maxTfdNum) (hr : r ≤ nrFrags + 1)
    (hN : r ≤ maxTfdNum) (h : InFlight s g m sent) (hh : Held s []) :
    (∃ m', InFlight (scan hw nrFrags r idx free s).1 g m' sent) ∧
      Held (scan hw nrFrags r idx free s).1 [] ∧
      Later (window maxTfdNum idx r) s (scan hw nrFrags r idx free s).1 ∧
      ∀ free', (scan hw nrFrags r idx free s).2 = some free' →
        free' = ((window maxTfdNum idx r).filterMap s.skb).foldl Reclaim.store free ∧
        Scanned (scan hw nrFrags r idx free s).1 nrFrags r idx := by
  induction r generalizing idx free s m with
  | zero =>
    refine ⟨⟨m, h⟩, hh, Later.refl _ s, fun free' hf => ⟨(Option.some.inj hf).symm, ?_⟩⟩
    exact fun k hk => absurd hk (Nat.not_lt_zero k)
  | succ r ih =>
    obtain ⟨⟨m₁, h₁⟩, hh₁, hl₁⟩ := completions_spec (hw (nrFrags - r)) h hh
    simp only [scan]
    generalize completions (hw (nrFrags - r)) s = s₁ at h₁ hh₁ hl₁ ⊢
    split
    · refine ⟨⟨m₁, h₁⟩, hh₁, hl₁.trans (Later.refl _ _) (List.nil_subset _), ?_⟩
      exact fun free' hf => by cases hf
    · rename_i hown
      have hown : (s₁.desc idx).cown = true := by simpa using hown
      obtain ⟨hc, hd⟩ := mark_spec s₁ idx (nrFrags - r = 0) (nrFrags - r = nrFrags)
      have hl₂ := mark_later s₁ idx (nrFrags - r = 0) (nrFrags - r = nrFrags)
      have hself : (mark s₁ idx (nrFrags - r = 0) (nrFrags - r = nrFrags)).desc idx =
          { s₁.desc idx with fs := nrFrags - r = 0, ls := nrFrags - r = nrFrags } := by
        simp [mark]
      have h₂ : InFlight (mark s₁ idx (nrFrags - r = 0) (nrFrags - r = nrFrags)) g m₁ sent :=
        h₁.touch rfl hc fun i hi => by
          rw [hd i fun e => by rw [e, hown] at hi; cases hi]
      have hh₂ : Held (mark s₁ idx (nrFrags - r = 0) (nrFrags - r = nrFrags)) [] :=
        hh₁.touch rfl rfl hc
      generalize mark s₁ idx (nrFrags - r = 0) (nrFrags - r = nrFrags) = s₂ at h₂ hh₂ hl₂ hself ⊢
      have hnext := increaseCyclic_lt hidx
      rw [increaseCyclic_eq hidx] at hnext ⊢
      obtain ⟨hm, hh₃, hl₃, hf⟩ := ih _ hnext (by omega) (by omega) h₂ hh₂
      have hsub : window maxTfdNum ((idx + 1) % maxTfdNum) r ⊆ window maxTfdNum idx (r + 1) := by
        rw [window_cons hidx]
        exact List.subset_cons_self _ _
      have hall : Later (window maxTfdNum idx (r + 1)) s s₂ :=
        (hl₁.trans hl₂ (List.nil_subset _)).weaken (by simp [window_cons hidx])
      refine ⟨hm, hh₃, hall.trans (hl₃.weaken hsub) (List.Subset.refl _), fun free' hfree => ?_⟩
      obtain ⟨rfl, hscan⟩ := hf free' hfree
      refine ⟨?_, hscan.cons hidx (by omega) (hl₃.own idx ?_) ?_⟩
      · rw [hall.skb, hl₁.skb, window_cons hidx, List.filterMap_cons]
        cases s.skb idx <;> rfl
      · rw [hself]
        exact hown
      · rw [hl₃.view idx (window_start_not_mem hidx (by omega)), hself]
        exact ⟨rfl, rfl⟩

end SnakeOs.Nic
