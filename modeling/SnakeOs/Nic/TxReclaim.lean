import SnakeOs.Nic.TxParts

namespace SnakeOs.Nic
open Arch Lib

/-- How many skbs the scan stores in `skb_free`, the scan that is turned away included. -/
def stores (hw : Nat → Nat) (nrFrags : Nat) : Nat → Nat → Tx → Nat
  | 0, _, _ => 0
  | r + 1, idx, s =>
    let f := nrFrags - r
    let s := completions (hw f) s
    if (s.desc idx).cown = false then 0
    else
      (if (s.skb idx).isSome then 1 else 0) +
        stores hw nrFrags r (increaseCyclic idx) (mark s idx (f = 0) (f = nrFrags))

/-- A scan that finds its descriptors ends with that many in `skb_free_count`. -/
theorem scan_count {hw : Nat → Nat} {nrFrags r idx : Nat} {free free' : Reclaim} {s : Tx}
    (h : (scan hw nrFrags r idx free s).2 = some free') :
    free'.count = free.count + stores hw nrFrags r idx s := by
  induction r generalizing idx free s with
  | zero =>
    obtain rfl := Option.some.inj h
    rfl
  | succ r ih =>
    simp only [scan, stores] at h ⊢
    split at h
    · cases h
    · rename_i hown
      rw [ih h, if_neg hown]
      cases (completions (hw (nrFrags - r)) s).skb idx with
      | none => simp
      | some x => simp [Reclaim.store, Nat.add_assoc]

theorem stores_le (hw : Nat → Nat) (nrFrags r idx : Nat) (s : Tx) :
    stores hw nrFrags r idx s ≤ r := by
  induction r generalizing idx s with
  | zero => exact le_rfl
  | succ r ih =>
    simp only [stores]
    split
    · omega
    · have htail := ih (increaseCyclic idx) (mark (completions (hw (nrFrags - r)) s) idx
        (nrFrags - r = 0) (nrFrags - r = nrFrags))
      split <;> omega

/-- Every look of the scan is a store only if none of them meets a descriptor of the
hardware and every slot holds an skb. -/
theorem stores_full_iff (hw : Nat → Nat) (nrFrags : Nat) {r idx : Nat} {s t : Tx} (hidx : idx < maxTfdNum)
    (hr : r ≤ nrFrags + 1) (h : SameOwners s t) : stores hw nrFrags r idx t = r ↔
      ¬StaysBusy hw r (nrFrags + 1 - r) idx s ∧ ∀ i ∈ window maxTfdNum idx r, t.skb i ≠ none := by
  induction r generalizing idx s t with
  | zero => simp [stores, StaysBusy]
  | succ r ih =>
    have h' := completions_sameOwners (hw (nrFrags - r)) h
    have hskb := (completions_sameBuffers (hw (nrFrags - r)) t).skb
    have hplace : nrFrags + 1 - (r + 1) = nrFrags - r := by omega
    rw [hplace, window_cons hidx]
    simp only [stores, StaysBusy]
    generalize completions (hw (nrFrags - r)) t = t' at h' hskb ⊢
    generalize completions (hw (nrFrags - r)) s = s' at h' ⊢
    have hmark : SameOwners s' (mark t' idx (nrFrags - r = 0) (nrFrags - r = nrFrags)) :=
      ⟨h'.1, fun i => ((mark_spec _ _ _ _).1 i).trans (h'.2 i)⟩
    have htail := ih (increaseCyclic_lt hidx) (by omega) hmark
    have hle := stores_le hw nrFrags r (increaseCyclic idx)
      (mark t' idx (nrFrags - r = 0) (nrFrags - r = nrFrags))
    rw [show nrFrags + 1 - r = nrFrags - r + 1 by omega] at htail
    rw [← h'.2 idx, ← hskb, List.forall_mem_cons]
    have hms : (mark t' idx (nrFrags - r = 0) (nrFrags - r = nrFrags)).skb = t'.skb := rfl
    rw [hms, increaseCyclic_eq hidx] at htail
    rw [increaseCyclic_eq hidx] at hle ⊢
    by_cases hown : (t'.desc idx).cown = false
    · simp [hown]
    · rw [if_neg hown]
      cases hx : t'.skb idx with
      | none => simp; omega
      | some x =>
        simp only [Option.isSome_some, if_true, hown, false_or, ne_eq, reduceCtorEq,
          not_false_eq_true, true_and]
        refine Iff.trans ?_ htail
        omega

/-- What a call of `star_nic_send_packet` stores. -/
def callStores (s : Tx) (p : Packet) (env : SendEnv) : Nat :=
  stores env.hw p.frags.length (p.frags.length + 1) s.cur s

/-- The ring together with the stores of each call so far. -/
structure Logged where
  ring : Tx
  counts : List Nat

def loggedStep (s : Logged) (a : TxAct) : Option Logged :=
  (txStep s.ring a).map fun t => ⟨t, s.counts ++
    match a with
    | .complete => []
    | .send p env => [callStores s.ring p env]⟩

/-- A call with fewer than the most fragments, one that is turned away, and one that finds a
slot of its window without an skb. -/
def StoresFit (s : Logged) : TxAct → Prop
  | .complete => True
  | .send p env =>
    p.frags.length < maxSkbFrags ∨ StaysBusy env.hw (p.frags.length + 1) 0 s.ring.cur s.ring ∨
      ∃ i ∈ window maxTfdNum s.ring.cur (p.frags.length + 1), s.ring.skb i = none

instance (s : Logged) : (a : TxAct) → Decidable (StoresFit s a)
  | .complete => .isTrue trivial
  | .send _ _ => inferInstanceAs (Decidable (_ ∨ _ ∨ _))

theorem callStores_le_iff {s : Tx} {p : Packet} {env : SendEnv} (hs : s.cur < maxTfdNum)
    (hn : p.frags.length ≤ maxSkbFrags) : callStores s p env ≤ maxSkbFrags ↔
      p.frags.length < maxSkbFrags ∨ StaysBusy env.hw (p.frags.length + 1) 0 s.cur s ∨
        ∃ i ∈ window maxTfdNum s.cur (p.frags.length + 1), s.skb i = none := by
  have hle := stores_le env.hw p.frags.length (p.frags.length + 1) s.cur s
  have hfull := stores_full_iff env.hw p.frags.length hs le_rfl
    (show SameOwners s s from ⟨rfl, fun _ => rfl⟩)
  rw [Nat.sub_self] at hfull
  unfold callStores
  constructor
  · intro h
    by_cases hlt : p.frags.length < maxSkbFrags
    · exact .inl hlt
    · right
      by_contra hno
      push Not at hno
      have := hfull.mpr hno
      omega
  · rintro (h | h | ⟨i, hi, hnone⟩)
    · omega
    · have hne : _ ≠ _ := fun he => (hfull.mp he).1 h
      omega
    · have hne : _ ≠ _ := fun he => (hfull.mp he).2 i hi hnone
      omega

/-- What the stores are counted beside is a run of the ring. -/
theorem logged_ring {ok : Logged → TxAct → Prop} {s : Logged}
    (h : Reach loggedStep ok ⟨txAlloc, []⟩ s) : Reach txStep anyStep txAlloc s.ring := by
  refine h.invariant (I := fun s => Reach txStep anyStep txAlloc s.ring) Reach.start
    fun u a t hu _ ht => ?_
  obtain ⟨v, hv, rfl⟩ := Option.map_eq_some_iff.mp ht
  exact hu.next trivial hv

/-- In every run whose calls all fit, no call stored past the end of `skb_free`, and whether
the next one does depends on whether it fits. -/
theorem reclaim_in_range {s : Logged} (h : Reach loggedStep StoresFit ⟨txAlloc, []⟩ s) :
    (∀ n ∈ s.counts, n ≤ maxSkbFrags) ∧
      ∀ p env, p.frags.length ≤ maxSkbFrags →
        (callStores s.ring p env ≤ maxSkbFrags ↔ StoresFit s (.send p env)) := by
  refine ⟨?_, fun p env hn => callStores_le_iff (reach_cur (logged_ring h)) hn⟩
  have hall : Reach txStep anyStep txAlloc s.ring ∧ ∀ n ∈ s.counts, n ≤ maxSkbFrags := by
    refine h.invariant
      (I := fun s => Reach txStep anyStep txAlloc s.ring ∧ ∀ n ∈ s.counts, n ≤ maxSkbFrags)
      ⟨Reach.start, by simp⟩ fun u a t hu hok ht => ?_
    obtain ⟨v, hv, rfl⟩ := Option.map_eq_some_iff.mp ht
    refine ⟨hu.1.next trivial hv, fun n hmem => ?_⟩
    rcases List.mem_append.mp hmem with hmem | hmem
    · exact hu.2 n hmem
    · cases a with
      | complete => cases hmem
      | send p env =>
        obtain rfl := List.mem_singleton.mp hmem
        simp only [txStep] at hv
        split at hv
        · rename_i hn
          exact (callStores_le_iff (reach_cur hu.1) hn).mpr hok
        · cases hv
  exact hall.2

/-- A ring of packets of one descriptor, all sent, and three with many fragments over them: the
last one has the most, and finds two slots without an skb. -/
def reclaimAll : List TxAct :=
  (List.range maxTfdNum).map (fun k => .send (smallPacket k) {}) ++
    List.replicate maxTfdNum .complete ++
    [.send (fragPacket 48 17) {}, .send (fragPacket 49 12) {}] ++ List.replicate 20 .complete ++
    [.send (fragPacket 50 18) {}]

theorem reclaim_in_range_full : ∃ s,
    run loggedStep StoresFit reclaimAll ⟨txAlloc, []⟩ = some s ∧
      s.counts.drop maxTfdNum = [18, 13, 17] ∧ s.ring.freed = List.range maxTfdNum ∧
      ∀ n ∈ s.counts, n ≤ maxSkbFrags := by
  have h : (run loggedStep StoresFit reclaimAll ⟨txAlloc, []⟩).map
      (fun s => (s.counts.drop maxTfdNum, s.ring.freed)) =
        some ([18, 13, 17], List.range maxTfdNum) := by decide +kernel
  obtain ⟨s, hs, hlast⟩ := Option.map_eq_some_iff.mp h
  obtain ⟨hcounts, hfreed⟩ := Prod.mk.inj hlast
  exact ⟨s, hs, hcounts, hfreed, (reclaim_in_range (Reach.start.run reclaimAll hs)).1⟩

/-- A ring of packets of one descriptor, all sent, and then one with the most fragments: the
array of eighteen gets nineteen skbs. -/
theorem nineteen_stored :
    ∃ s, run loggedStep anyStep mostFragments ⟨txAlloc, []⟩ = some s ∧
      Reach loggedStep anyStep ⟨txAlloc, []⟩ s ∧ ∃ n ∈ s.counts, maxSkbFrags < n := by
  have h : (run loggedStep anyStep mostFragments ⟨txAlloc, []⟩).map (fun s => s.counts.getLast?) =
      some (some 19) := by decide +kernel
  obtain ⟨s, hs, hlast⟩ := Option.map_eq_some_iff.mp h
  exact ⟨s, hs, Reach.start.run mostFragments hs, 19, List.mem_of_getLast? hlast, by decide⟩

end SnakeOs.Nic
