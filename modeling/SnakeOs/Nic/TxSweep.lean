import SnakeOs.Nic.TxMulti
import SnakeOs.Nic.TxOwned

namespace SnakeOs.Nic
open Arch Lib

/-- The invariant of the ring while `free` has been collected. -/
structure MultiInv (s : TxMulti) (free : List Nat) : Prop where
  flight : ∃ m, InFlight s.tx s.tx.cur m (s.tx.accepted.flatMap Packet.views)
  owned : Owned s.tx s.owner 0
  held : Held s.tx []
  perm : (s.tx.accepted.map Packet.skb).Perm (s.tx.holding ++ (free ++ s.tx.freed))
  returned : ∀ x ∈ free, ∃ i, Returned s.tx.events i x

/-- `to_free_index` stands `d` slots ahead of `cur_index`, and these slots are empty. -/
structure Swept (s : TxMulti) (d : Nat) : Prop where
  le : d ≤ maxTfdNum
  ahead : (s.tx.cur + d) % maxTfdNum = s.toFree
  empty : ∀ i ∈ window maxTfdNum s.tx.cur d, s.tx.skb i = none

theorem completions_keep (n : Nat) (s : Tx) :
    (completions n s).skb = s.skb ∧ (completions n s).cur = s.cur := by
  induction n generalizing s with
  | zero => exact ⟨rfl, rfl⟩
  | succ n ih =>
    simp only [completions]
    cases ht : complete s with
    | none => exact ⟨rfl, rfl⟩
    | some t =>
      have hl := complete_later ht
      exact ⟨(ih t).1.trans hl.skb, (ih t).2.trans hl.cur⟩

/-- The hardware and the scan keep the invariant. -/
theorem MultiInv.later {s : TxMulti} {free W : List Nat} {t : Tx} (h : MultiInv s free)
    (hl : Later W s.tx t) (toFree : Nat)
    (hf : ∃ m, InFlight t s.tx.cur m (s.tx.accepted.flatMap Packet.views)) (hh : Held t []) :
    MultiInv { s with tx := t, toFree := toFree } free where
  flight := by
    simp only [hl.cur, hl.accepted]
    exact hf
  owned := by
    obtain ⟨m, hm⟩ := h.flight
    obtain ⟨m', hm'⟩ := hf
    exact h.owned.later hm hm' hl
  held := hh
  perm := by
    have hhold : t.holding = s.tx.holding := by rw [Tx.holding, hl.skb, Tx.holding]
    simp only [hl.accepted, hl.freed, hhold]
    exact h.perm
  returned := by
    intro x hx
    obtain ⟨i, hi⟩ := h.returned x hx
    obtain ⟨es, hes⟩ := hl.events
    exact ⟨i, hes ▸ hi.append es⟩

theorem MultiInv.completions {s : TxMulti} {free : List Nat} (h : MultiInv s free) (n : Nat) :
    MultiInv { s with tx := completions n s.tx } free := by
  obtain ⟨m, hm⟩ := h.flight
  obtain ⟨hf, hh, hl⟩ := completions_spec n hm h.held
  exact h.later hl s.toFree hf hh

theorem Swept.keep {s t : TxMulti} {d : Nat} (h : Swept s d) (hcur : t.tx.cur = s.tx.cur)
    (htoFree : t.toFree = s.toFree) (hskb : ∀ i, s.tx.skb i = none → t.tx.skb i = none) :
    Swept t d :=
  ⟨h.le, by rw [hcur, htoFree]; exact h.ahead, fun i hi => hskb i (h.empty i (hcur ▸ hi))⟩

theorem Swept.toFree_lt {s : TxMulti} {d : Nat} (h : Swept s d) : s.toFree < maxTfdNum :=
  h.ahead ▸ Nat.mod_lt _ (by decide)

/-- One slot further. When the way has gone round, every slot is empty anyway. -/
theorem Swept.further {s t : TxMulti} {d : Nat} (h : Swept s d) (hcur : t.tx.cur = s.tx.cur)
    (hlt : s.tx.cur < maxTfdNum) (htoFree : t.toFree = increaseCyclic s.toFree)
    (hskb : ∀ i, s.tx.skb i = none → t.tx.skb i = none) (hnew : t.tx.skb s.toFree = none) :
    ∃ d', 0 < d' ∧ Swept t d' := by
  have hnext : (s.tx.cur + (d + 1)) % maxTfdNum = t.toFree := by
    rw [htoFree, increaseCyclic_eq h.toFree_lt, ← h.ahead, Nat.mod_add_mod, Nat.add_assoc]
  rcases Nat.lt_or_ge d maxTfdNum with hd | hd
  · refine ⟨d + 1, Nat.succ_pos d, hd, by rw [hcur]; exact hnext, fun i hi => ?_⟩
    rw [hcur, window_snoc, h.ahead] at hi
    rcases List.mem_append.mp hi with hi | hi
    · exact hskb i (h.empty i hi)
    · rw [List.mem_singleton.mp hi]
      exact hnew
  · obtain rfl : d = maxTfdNum := Nat.le_antisymm h.le hd
    refine ⟨1, Nat.one_pos, by decide, ?_, fun i hi => ?_⟩
    · rw [hcur, ← hnext, Nat.add_comm maxTfdNum 1, ← Nat.add_assoc, Nat.add_mod_right]
    · obtain ⟨k, _, rfl⟩ := mem_window.mp hi
      exact hskb _ (h.empty _ (mem_window_full hlt (Nat.mod_lt _ (by decide))))

theorem Swept.cur_empty {s : TxMulti} {d : Nat} (h : Swept s d) (hd : 0 < d)
    (hlt : s.tx.cur < maxTfdNum) : s.tx.skb s.tx.cur = none :=
  h.empty _ (mem_window.mpr ⟨0, hd, Nat.mod_eq_of_lt hlt⟩)

/-- Taking the skb out of a slot whose descriptor came back. -/
theorem MultiInv.take {s : TxMulti} {free : List Nat} {x : Nat} (h : MultiInv s free)
    (hlt : s.toFree < maxTfdNum) (hown : (s.tx.desc s.toFree).cown = true)
    (hx : s.tx.skb s.toFree = some x) :
    MultiInv { s with tx := clearSlot s.tx s.toFree, toFree := increaseCyclic s.toFree }
      (free ++ [x]) := by
  obtain ⟨m, hm⟩ := h.flight
  have hskb {i y : Nat} (hi : Function.update s.tx.skb s.toFree none i = some y) :
      s.tx.skb i = some y := by
    by_cases he : i = s.toFree
    · simp [he] at hi
    · rwa [Function.update_of_ne he] at hi
  refine ⟨⟨m, hm.touch rfl (fun _ => rfl) fun _ _ => rfl⟩, ?_, ⟨?_, h.held.frees⟩, ?_, ?_⟩
  · have hcount : inHardware (clearSlot s.tx s.toFree) = m :=
      (hm.touch (t := clearSlot s.tx s.toFree) rfl (fun _ => rfl) fun _ _ => rfl).count
    have ho := h.owned
    rw [Owned, hm.count] at ho
    rw [Owned, hcount]
    intro k hk
    obtain ⟨l, hl, hkl, y, hy, hs⟩ := ho k hk
    refine ⟨l, hl, hkl, y, hy, ?_⟩
    have hne : (s.tx.txsd + l) % maxTfdNum ≠ s.toFree := by
      intro he
      have := hm.busy _ (mem_window.mpr ⟨l, hl, rfl⟩)
      rw [he, hown] at this
      cases this
    exact (Function.update_of_ne hne _ _).trans hs
  · exact fun i y hy => h.held.slots i y (hskb hy)
  · have hclear := filterMap_clear List.nodup_range (List.mem_range.mpr hlt) hx
    refine h.perm.trans ((hclear.append_right _).trans ?_)
    simp only [Tx.holding, clearSlot, List.append_assoc, List.cons_append, List.nil_append]
    exact List.perm_middle.symm.trans (List.Perm.append_left _ List.perm_middle.symm)
  · intro y hy
    rcases List.mem_append.mp hy with hy | hy
    · exact h.returned y hy
    · rw [List.mem_singleton.mp hy]
      exact ⟨s.toFree, (h.held.slots s.toFree x hx).2 hown List.not_mem_nil⟩

theorem stash_room {free : List Nat} (h : free.length < maxTxSkbFreeNum) (x : Nat) :
    stash free x = free ++ [x] := if_pos h

/-- What the sweep has done when it stops: if it collected anything, the slot at
`cur_index` is empty. -/
structure SweptTo (s t : TxMulti) (free free' : List Nat) : Prop where
  inv : MultiInv t free'
  swept : ∃ d, Swept t d
  cur : t.tx.cur = s.tx.cur
  kept : ∀ i, s.tx.skb i = none → t.tx.skb i = none
  length : free'.length ≤ freeTxSkbMultiMax
  room : free' = free ∨ t.tx.skb t.tx.cur = none

/-- The round of a sweep that goes on from a slot it has emptied. -/
theorem SweptTo.round {s t u : TxMulti} {free free' free'' : List Nat}
    (h : SweptTo t u free' free'') (hcur : t.tx.cur = s.tx.cur)
    (hkept : ∀ i, s.tx.skb i = none → t.tx.skb i = none) (hempty : t.tx.skb t.tx.cur = none) :
    SweptTo s u free free'' where
  inv := h.inv
  swept := h.swept
  cur := h.cur.trans hcur
  kept := fun i hi => h.kept i (hkept i hi)
  length := h.length
  room := by
    right
    rw [h.cur]
    exact h.kept _ hempty

theorem sweep_spec (hw : Nat → Nat) (n : Nat) {free : List Nat} {s : TxMulti} {d : Nat}
    (h : MultiInv s free) (hs : Swept s d) (hlen : free.length + n ≤ freeTxSkbMultiMax) :
    SweptTo s (sweep hw n free s).1 free (sweep hw n free s).2 := by
  induction n generalizing free s d with
  | zero => exact ⟨h, ⟨d, hs⟩, rfl, fun _ hi => hi, hlen, .inl rfl⟩
  | succ n ih =>
    have hshort : free.length ≤ freeTxSkbMultiMax := by omega
    obtain ⟨hskb, hcur⟩ := completions_keep (hw (freeTxSkbMultiMax - (n + 1))) s.tx
    have h₁ := h.completions (hw (freeTxSkbMultiMax - (n + 1)))
    simp only [sweep]
    generalize completions (hw (freeTxSkbMultiMax - (n + 1))) s.tx = tx at hskb hcur h₁ ⊢
    have hs₁ : Swept { s with tx := tx } d :=
      hs.keep hcur rfl fun i hi => (congrFun hskb i).trans hi
    obtain ⟨m, hm⟩ := h₁.flight
    split
    · exact ⟨h₁, ⟨d, hs₁⟩, hcur, fun i hi => (congrFun hskb i).trans hi, hshort, .inl rfl⟩
    · rename_i hown
      have hown : (tx.desc s.toFree).cown = true := by simpa using hown
      cases hx : tx.skb s.toFree with
      | none =>
        have h₂ : MultiInv ⟨tx, increaseCyclic s.toFree, s.owner⟩ free :=
          ⟨h₁.flight, h₁.owned, h₁.held, h₁.perm, h₁.returned⟩
        obtain ⟨d', hd, hs₂⟩ : ∃ d', 0 < d' ∧ Swept ⟨tx, increaseCyclic s.toFree, s.owner⟩ d' :=
          hs₁.further rfl hm.lt rfl (fun _ hi => hi) hx
        simp only
        rw [if_neg (by omega)]
        exact (ih h₂ hs₂ (by omega)).round hcur (fun i hi => (congrFun hskb i).trans hi)
          (hs₂.cur_empty hd hm.lt)
      | some x =>
        have hkept : ∀ i, tx.skb i = none → (clearSlot tx s.toFree).skb i = none := by
          intro i hi
          by_cases he : i = s.toFree
          · simp [clearSlot, he]
          · simpa [clearSlot, Function.update_of_ne he] using hi
        have h₂ : MultiInv ⟨clearSlot tx s.toFree, increaseCyclic s.toFree, s.owner⟩ (free ++ [x]) :=
          h₁.take hs.toFree_lt hown hx
        obtain ⟨d', hd, hs₂⟩ : ∃ d', 0 < d' ∧
            Swept ⟨clearSlot tx s.toFree, increaseCyclic s.toFree, s.owner⟩ d' :=
          hs₁.further rfl hm.lt rfl hkept (by simp [clearSlot])
        have hempty := hs₂.cur_empty hd hm.lt
        have hall : ∀ i, s.tx.skb i = none → (clearSlot tx s.toFree).skb i = none :=
          fun i hi => hkept i ((congrFun hskb i).trans hi)
        have hroom : free.length < maxTxSkbFreeNum := by
          unfold maxTxSkbFreeNum
          omega
        have hlen' : (free ++ [x]).length + n ≤ freeTxSkbMultiMax := by
          simp only [List.length_append, List.length_singleton]
          omega
        simp only [stash_room hroom]
        split
        · exact ⟨h₂, ⟨d', hs₂⟩, hcur, hall, Nat.le_of_add_right_le hlen', .inr hempty⟩
        · exact (ih h₂ hs₂ hlen').round hcur hall hempty

/-- The scan of `r` descriptors from `idx` on meets one the hardware still owns after it
has passed a slot that holds an skb; `f` counts the looks before. -/
def PicksThenBusy (hw : Nat → Nat) : Nat → Nat → Nat → Bool → Tx → Prop
  | 0, _, _, _, _ => False
  | r + 1, f, idx, picked, s =>
    if ((completions (hw f) s).desc idx).cown = false then picked = true
    else PicksThenBusy hw r (f + 1) (increaseCyclic idx) (picked || (s.skb idx).isSome)
      (completions (hw f) s)

instance PicksThenBusy.decidable (hw : Nat → Nat) : (r f idx : Nat) → (picked : Bool) →
    (s : Tx) → Decidable (PicksThenBusy hw r f idx picked s)
  | 0, _, _, _, _ => .isFalse id
  | r + 1, f, idx, picked, s =>
    have := PicksThenBusy.decidable hw r (f + 1) (increaseCyclic idx)
      (picked || (s.skb idx).isSome) (completions (hw f) s)
    inferInstanceAs (Decidable (ite _ _ _))

/-- A call that is turned away has not passed an skb that the sweep left in its slot. -/
def MultiSafe (s : TxMulti) : TxAct → Prop
  | .complete => True
  | .send p env =>
    let swept := (sweep env.hw freeTxSkbMultiMax [] s).1
    ¬ PicksThenBusy env.afterSweep.hw (p.frags.length + 1) 0 swept.tx.cur false swept.tx

instance (s : TxMulti) : (a : TxAct) → Decidable (MultiSafe s a)
  | .complete => .isTrue trivial
  | .send _ _ => inferInstanceAs (Decidable (¬ _))

/-- The scan does to the ring what it does without the sweep. -/
theorem scanMulti_tx (hw : Nat → Nat) (nrFrags r idx : Nat) (free : List Nat) (s : TxMulti)
    (fr : Reclaim) :
    (scanMulti hw nrFrags r idx free s).1.tx = (scan hw nrFrags r idx fr s.tx).1 ∧
      (scanMulti hw nrFrags r idx free s).1.owner = s.owner ∧
      ((scanMulti hw nrFrags r idx free s).2.2 = true →
        ∃ fr', (scan hw nrFrags r idx fr s.tx).2 = some fr') := by
  induction r generalizing idx free s fr with
  | zero => exact ⟨rfl, rfl, fun _ => ⟨fr, rfl⟩⟩
  | succ r ih =>
    simp only [scanMulti, scan]
    split
    · exact ⟨rfl, rfl, fun h => by cases h⟩
    · exact ih ..

/-- `to_free_index` goes along exactly when the scan stands on it. -/
theorem toFree_along {c k d toFree : Nat} (hkd : k ≤ d) (hd : d < maxTfdNum)
    (hk : k + 1 < maxTfdNum) (hto : (c + d) % maxTfdNum = toFree) :
    ∃ d', k + 1 ≤ d' ∧ d' < maxTfdNum ∧
      (c + d') % maxTfdNum = (if (c + k) % maxTfdNum = toFree then increaseCyclic toFree
        else toFree) ∧ ∀ q, max d' (k + 1 + q) = max d (k + (q + 1)) := by
  by_cases he : (c + k) % maxTfdNum = toFree
  · have hkd := window_place_inj (by omega) hd (he.trans hto.symm)
    refine ⟨k + 1, le_rfl, by omega, ?_, fun q => by omega⟩
    rw [if_pos he, ← he, increaseCyclic_eq (Nat.mod_lt _ (by decide)), Nat.mod_add_mod,
      Nat.add_assoc]
  · have hlt : k < d := by
      refine lt_of_le_of_ne hkd fun e => he ?_
      rw [e, hto]
    exact ⟨d, hlt, hd, by rw [if_neg he, hto], fun q => by omega⟩

/-- One descriptor of the scan. -/
theorem scanMulti_succ (hw : Nat → Nat) (nrFrags r idx : Nat) (free : List Nat) (s : TxMulti) :
    scanMulti hw nrFrags (r + 1) idx free s =
      let tx := completions (hw (nrFrags - r)) s.tx
      if (tx.desc idx).cown = false then ({ s with tx := tx }, free, false)
      else scanMulti hw nrFrags r (increaseCyclic idx) ((tx.skb idx).elim free (stash free))
        { s with tx := mark tx idx (nrFrags - r = 0) (nrFrags - r = nrFrags),
                 toFree := if idx = s.toFree then increaseCyclic s.toFree else s.toFree } := by
  simp only [scanMulti]
  cases (completions (hw (nrFrags - r)) s.tx).skb idx <;> rfl

/-- The way of the scan, from `k` slots behind `cur_index` on, with `to_free_index` `d`
slots behind it and pushed along when it is met. A scan that is turned away without having
picked anything up has passed empty slots only. -/
theorem scanMulti_walk (hw : Nat → Nat) (nrFrags r : Nat) {c k d : Nat} (free : List Nat)
    {s : TxMulti} (hkd : k ≤ d) (hd : d < maxTfdNum) (hkr : k + r < maxTfdNum)
    (hr : r ≤ nrFrags + 1) (hto : (c + d) % maxTfdNum = s.toFree) :
    ∃ q ≤ r, (scanMulti hw nrFrags r ((c + k) % maxTfdNum) free s).1.toFree =
        (c + max d (k + q)) % maxTfdNum ∧
      ((scanMulti hw nrFrags r ((c + k) % maxTfdNum) free s).2.2 = true → q = r ∧
        (scanMulti hw nrFrags r ((c + k) % maxTfdNum) free s).2.1 =
          ((window maxTfdNum ((c + k) % maxTfdNum) r).filterMap s.tx.skb).foldl stash free) ∧
      ((scanMulti hw nrFrags r ((c + k) % maxTfdNum) free s).2.2 = false → ∀ picked t,
        SameOwners t s.tx → t.skb = s.tx.skb →
        ¬ PicksThenBusy hw r (nrFrags + 1 - r) ((c + k) % maxTfdNum) picked t →
        picked = false ∧ (scanMulti hw nrFrags r ((c + k) % maxTfdNum) free s).2.1 = free ∧
          ∀ l < q, s.tx.skb ((c + (k + l)) % maxTfdNum) = none) := by
  induction r generalizing k d free s with
  | zero =>
    refine ⟨0, le_rfl, ?_, fun _ => ⟨rfl, rfl⟩, fun h => (by cases h)⟩
    rw [Nat.add_zero, Nat.max_eq_left hkd]
    exact hto.symm
  | succ r ih =>
    obtain ⟨hskb, hcur⟩ := completions_keep (hw (nrFrags - r)) s.tx
    have hidx : (c + k) % maxTfdNum < maxTfdNum := Nat.mod_lt _ (by decide)
    have hnext : increaseCyclic ((c + k) % maxTfdNum) = (c + (k + 1)) % maxTfdNum := by
      rw [increaseCyclic_eq hidx, Nat.mod_add_mod, Nat.add_assoc]
    simp only [scanMulti_succ]
    split
    · rename_i hbusy
      refine ⟨0, Nat.zero_le _, ?_, fun h => (by cases h), fun _ picked t hso _ hp => ?_⟩
      · rw [Nat.add_zero, Nat.max_eq_left hkd]
        exact hto.symm
      · have hown := (completions_sameOwners (hw (nrFrags - r)) hso).2 ((c + k) % maxTfdNum)
        rw [hbusy] at hown
        rw [Nat.add_sub_add_right] at hp
        simp only [PicksThenBusy] at hp
        rw [if_pos hown.symm] at hp
        exact ⟨by simpa using hp, rfl, fun l hl => absurd hl (Nat.not_lt_zero l)⟩
    · rename_i hfree
      obtain ⟨d', hkd', hd', hto', hmax⟩ := toFree_along hkd hd (by omega) hto
      rw [hnext]
      have hmark := mark_spec (completions (hw (nrFrags - r)) s.tx) ((c + k) % maxTfdNum)
        (nrFrags - r = 0) (nrFrags - r = nrFrags)
      obtain ⟨q, hq, htoq, hfound, hturned⟩ := ih
        (s := ⟨mark (completions (hw (nrFrags - r)) s.tx) ((c + k) % maxTfdNum) (nrFrags - r = 0)
          (nrFrags - r = nrFrags), if (c + k) % maxTfdNum = s.toFree then increaseCyclic s.toFree
          else s.toFree, s.owner⟩)
        (((completions (hw (nrFrags - r)) s.tx).skb ((c + k) % maxTfdNum)).elim free (stash free))
        hkd' hd' (by omega) (by omega) hto'
      refine ⟨q + 1, by omega, htoq.trans (by rw [hmax]), fun hf => ?_,
        fun hf picked t hso hst hp => ?_⟩
      · obtain ⟨rfl, hlist⟩ := hfound hf
        refine ⟨rfl, hlist.trans ?_⟩
        rw [window_cons hidx, Nat.mod_add_mod, Nat.add_assoc, List.filterMap_cons]
        simp only [mark, hskb]
        cases s.tx.skb ((c + k) % maxTfdNum) <;> rfl
      · have hso' := completions_sameOwners (hw (nrFrags - r)) hso
        obtain ⟨htskb, _⟩ := completions_keep (hw (nrFrags - r)) t
        rw [Nat.add_sub_add_right] at hp
        simp only [PicksThenBusy] at hp
        rw [if_neg (by rw [← hso'.2]; exact hfree), hnext,
          show nrFrags - r + 1 = nrFrags + 1 - r by omega] at hp
        obtain ⟨hpick, hlist, hnull⟩ := hturned hf _ _
          ⟨hso'.1, fun i => (hmark.1 i).trans (hso'.2 i)⟩ (htskb.trans (hst.trans hskb.symm)) hp
        obtain ⟨hpicked, hnone⟩ := Bool.or_eq_false_iff.mp hpick
        have hslot : s.tx.skb ((c + k) % maxTfdNum) = none := by
          rw [← hst]
          simpa using hnone
        refine ⟨hpicked, hlist.trans ?_, fun l hl => ?_⟩
        · rw [hskb, hslot, Option.elim_none]
        · cases l with
          | zero => exact hslot
          | succ l =>
            have := hnull l (by omega)
            rwa [mark, hskb, show k + 1 + l = k + (l + 1) by omega] at this

theorem stash_all {free xs : List Nat} (h : free.length + xs.length ≤ maxTxSkbFreeNum) :
    xs.foldl stash free = free ++ xs := by
  induction xs generalizing free with
  | nil => simp
  | cons x xs ih =>
    simp only [List.length_cons] at h
    have hroom : (free ++ [x]).length + xs.length ≤ maxTxSkbFreeNum := by
      simp only [List.length_append, List.length_singleton]
      omega
    rw [List.foldl_cons, stash_room (by omega), ih hroom, List.append_assoc, List.singleton_append]

/-- When the sweep has collected anything the slot at `cur_index` is empty, so what the
scan finds still fits. -/
theorem SweptTo.fits {s t : TxMulti} {free : List Nat} {n : Nat} (h : SweptTo s t [] free)
    (hlt : t.tx.cur < maxTfdNum) (hn : n ≤ maxSkbFrags) :
    free.length + ((window maxTfdNum t.tx.cur (n + 1)).filterMap t.tx.skb).length ≤
      maxTxSkbFreeNum := by
  have hlen := h.length
  rcases h.room with rfl | hempty
  · have := List.length_filterMap_le t.tx.skb (window maxTfdNum t.tx.cur (n + 1))
    rw [length_window] at this
    simp only [maxTxSkbFreeNum, freeTxSkbMultiMax, List.length_nil] at *
    omega
  · rw [window_cons hlt, List.filterMap_cons, hempty]
    have := List.length_filterMap_le t.tx.skb (window maxTfdNum ((t.tx.cur + 1) % maxTfdNum) n)
    rw [length_window] at this
    simp only [maxTxSkbFreeNum] at *
    omega

/-- The empty slots before `to_free_index` need not go once round. -/
theorem Swept.short {s : TxMulti} {d : Nat} (h : Swept s d) : ∃ d' < maxTfdNum, Swept s d' := by
  rcases Nat.lt_or_ge d maxTfdNum with hd | hd
  · exact ⟨d, hd, h⟩
  · obtain rfl : d = maxTfdNum := Nat.le_antisymm h.le hd
    refine ⟨0, by decide, Nat.zero_le _, ?_, fun i hi => ?_⟩
    · rw [← h.ahead, Nat.add_mod_right, Nat.add_zero]
    · simp at hi

/-- Between calls nothing is collected. -/
structure MultiIdle (s : TxMulti) : Prop where
  inv : MultiInv s []
  swept : ∃ d, Swept s d

theorem MultiInv.release {s : TxMulti} {free : List Nat} (h : MultiInv s free) :
    MultiInv (release s free) [] where
  flight := by
    obtain ⟨m, hm⟩ := h.flight
    exact ⟨m, hm.touch rfl (fun _ => rfl) fun _ _ => rfl⟩
  owned := h.owned
  held := h.held.free h.returned
  perm := h.perm.trans (List.perm_append_comm.append_left _)
  returned := fun x hx => (by cases hx)

/-- The scan of a call, with `to_free_index` `d` slots ahead. -/
structure ScannedTo (t : TxMulti) (n d : Nat) (free : List Nat)
    (res : TxMulti × List Nat × Bool) : Prop where
  inv : MultiInv res.1 free
  cur : res.1.tx.cur = t.tx.cur
  skb : res.1.tx.skb = t.tx.skb
  found : res.2.2 = true → Scanned res.1.tx n (n + 1) t.tx.cur ∧
    res.1.toFree = (t.tx.cur + max d (n + 1)) % maxTfdNum ∧
    res.2.1 = ((window maxTfdNum t.tx.cur (n + 1)).filterMap t.tx.skb).foldl stash free

theorem scanMulti_spec (hw : Nat → Nat) {n d : Nat} {free : List Nat} {t : TxMulti}
    (h : MultiInv t free) (hs : Swept t d) (hd : d < maxTfdNum) (hn : n ≤ maxSkbFrags) :
    ScannedTo t n d free (scanMulti hw n (n + 1) t.tx.cur free t) ∧
      ((scanMulti hw n (n + 1) t.tx.cur free t).2.2 = false →
        ¬ PicksThenBusy hw (n + 1) 0 t.tx.cur false t.tx →
        (scanMulti hw n (n + 1) t.tx.cur free t).2.1 = free ∧
          ∃ d', Swept (scanMulti hw n (n + 1) t.tx.cur free t).1 d') := by
  have hN : n + 1 < maxTfdNum := Nat.lt_of_le_of_lt (Nat.succ_le_succ hn) (by decide)
  obtain ⟨m, hm⟩ := h.flight
  obtain ⟨hf, hh, hl, hscan⟩ := scan_spec hw n (n + 1) {} hm.lt le_rfl hN.le hm h.held
  obtain ⟨htx, howner, hsome⟩ := scanMulti_tx hw n (n + 1) t.tx.cur free t {}
  have hstart : (t.tx.cur + 0) % maxTfdNum = t.tx.cur := Nat.mod_eq_of_lt hm.lt
  obtain ⟨q, hq, hto, hfound, hturned⟩ := scanMulti_walk hw n (n + 1) (c := t.tx.cur) (k := 0)
    free (Nat.zero_le d) hd (by omega) le_rfl hs.ahead
  rw [hstart] at hto hfound hturned
  generalize scanMulti hw n (n + 1) t.tx.cur free t = res at *
  obtain ⟨⟨tx, toFree, owner⟩, free', found⟩ := res
  simp only at htx howner hto hfound hturned hsome ⊢
  subst htx howner
  refine ⟨⟨h.later hl toFree hf hh, hl.cur, hl.skb, fun he => ?_⟩, fun he hp => ?_⟩
  · obtain ⟨fr, hfr⟩ := hsome he
    obtain ⟨rfl, hlist⟩ := hfound he
    refine ⟨(hscan fr hfr).2, ?_, hlist⟩
    rw [hto, Nat.zero_add]
  · obtain ⟨-, hlist, hnull⟩ := hturned he false t.tx ⟨rfl, fun _ => rfl⟩ rfl (by simpa using hp)
    refine ⟨hlist, max d q, by omega, ?_, fun i hi => ?_⟩
    · simp only [hl.cur, hto, Nat.zero_add]
    · simp only [hl.cur, hl.skb] at hi ⊢
      obtain ⟨k, hk, rfl⟩ := mem_window.mp hi
      rcases lt_max_iff.mp hk with hk | hk
      · exact hs.empty _ (mem_window.mpr ⟨k, hk, rfl⟩)
      · simpa using hnull k hk

/-- A call that found its descriptors: the skbs it noted are those whose slots it fills. -/
theorem ScannedTo.accept {t : TxMulti} {p : Packet} {d : Nat} {free : List Nat}
    {res : TxMulti × List Nat × Bool} (env : SendEnv)
    (h : ScannedTo t p.frags.length d free res) (hs : Swept t d) (hd : d < maxTfdNum)
    (hn : p.frags.length ≤ maxSkbFrags) (hfound : res.2.2 = true)
    (hfits : free.length + ((window maxTfdNum t.tx.cur (p.frags.length + 1)).filterMap
      t.tx.skb).length ≤ maxTxSkbFreeNum) :
    MultiInv (acceptMulti res.1 p env) res.2.1 ∧ ∃ d', Swept (acceptMulti res.1 p env) d' := by
  obtain ⟨hscan, hto, hlist⟩ := h.found hfound
  rw [stash_all hfits] at hlist
  obtain ⟨⟨tx, toFree, owner⟩, free', found⟩ := res
  obtain ⟨hinv, hcur, hskb, -⟩ := h
  simp only at hcur hskb hscan hto hlist ⊢
  subst hlist
  rw [← hcur] at hscan
  obtain ⟨m, hm⟩ := hinv.flight
  have htaken := accept_taken env hm hinv.held hn hscan
  refine ⟨⟨htaken.flight, htaken.owned owner hinv.owned, htaken.held, ?_, ?_⟩, ?_⟩
  · have hnew := (List.perm_append_singleton p.skb _).trans (hinv.perm.cons p.skb)
    have hall := hnew.trans (htaken.holding.append_right (free ++ tx.freed))
    simp only [acceptMulti, htaken.accepted, htaken.freed, List.map_append, List.map_singleton]
    refine hall.trans ?_
    rw [List.append_assoc, ← hcur, ← hskb]
    refine List.Perm.append_left _ ?_
    rw [← List.append_assoc]
    exact List.perm_append_comm.append_right _
  · intro x hx
    obtain ⟨es, hes⟩ := htaken.events
    rcases List.mem_append.mp hx with hx | hx
    · obtain ⟨i, hi⟩ := hinv.returned x hx
      exact ⟨i, hes ▸ hi.append es⟩
    · rw [← hcur, ← hskb] at hx
      obtain ⟨i, hi, hix⟩ := List.mem_filterMap.mp hx
      have hret := (hinv.held.slots i x hix).2 (hscan.own i hi) List.not_mem_nil
      exact ⟨i, hes ▸ hret.append es⟩
  · -- what is left of the way to `to_free_index`
    have hplace (k : Nat) : ((tx.cur + (p.frags.length + 1)) % maxTfdNum + k) % maxTfdNum =
        (t.tx.cur + (p.frags.length + 1 + k)) % maxTfdNum := by
      rw [Nat.mod_add_mod, Nat.add_assoc, hcur]
    refine ⟨max d (p.frags.length + 1) - (p.frags.length + 1), ?_, ?_, fun i hi => ?_⟩
    · omega
    · simp only [acceptMulti, htaken.cur]
      rw [hplace, Nat.add_sub_cancel' (le_max_right _ _), hto]
    · simp only [acceptMulti, htaken.cur] at hi ⊢
      obtain ⟨k, hk, rfl⟩ := mem_window.mp hi
      rw [hplace]
      have hout : (t.tx.cur + (p.frags.length + 1 + k)) % maxTfdNum ∉
          window maxTfdNum tx.cur (p.frags.length + 1) := by
        intro hw
        obtain ⟨l, hl, he⟩ := mem_window.mp hw
        rw [hcur] at he
        have := window_place_inj (by omega) (by omega) he
        omega
      rw [htaken.outside _ hout, hskb]
      exact hs.empty _ (mem_window.mpr ⟨_, by omega, rfl⟩)

theorem sendMulti_idle {s : TxMulti} {p : Packet} {env : SendEnv} (h : MultiIdle s)
    (hn : p.frags.length ≤ maxSkbFrags) (hsafe : MultiSafe s (.send p env)) :
    MultiIdle (sendMulti s p env).1 := by
  obtain ⟨d, hs⟩ := h.swept
  have hsweep := sweep_spec env.hw freeTxSkbMultiMax h.inv hs (by simp)
  simp only [MultiSafe] at hsafe
  simp only [sendMulti]
  generalize sweep env.hw freeTxSkbMultiMax [] s = swept at hsweep hsafe ⊢
  obtain ⟨t, free⟩ := swept
  simp only at hsweep hsafe ⊢
  obtain ⟨d, hs⟩ := hsweep.swept
  obtain ⟨d, hd, hs⟩ := hs.short
  obtain ⟨m, hm⟩ := hsweep.inv.flight
  obtain ⟨hscan, hturned⟩ := scanMulti_spec env.afterSweep.hw hsweep.inv hs hd hn
  generalize scanMulti env.afterSweep.hw p.frags.length (p.frags.length + 1) t.tx.cur free t = res
    at hscan hturned ⊢
  obtain ⟨u, free', found⟩ := res
  cases found with
  | false =>
    obtain ⟨rfl, hsw⟩ := hturned rfl hsafe
    obtain ⟨d', hs'⟩ := hsw
    exact ⟨hscan.inv.release, d', hs'.keep rfl rfl fun _ hi => hi⟩
  | true =>
    obtain ⟨hinv, d', hs'⟩ := hscan.accept env.afterSweep hs hd hn rfl (hsweep.fits hm.lt hn)
    exact ⟨hinv.release, d', hs'.keep rfl rfl fun _ hi => hi⟩

theorem multiAlloc_idle : MultiIdle multiAlloc where
  inv := ⟨txAlloc_inv.flight, fun k hk => absurd hk (by decide +revert), txAlloc_inv.held,
    txAlloc_inv.perm, fun x hx => (by cases hx)⟩
  swept := ⟨0, Nat.zero_le _, rfl, fun i hi => (by simp at hi)⟩

theorem multi_idle {s : TxMulti} (h : Reach multiStep MultiSafe multiAlloc s) : MultiIdle s := by
  refine h.invariant multiAlloc_idle fun u a t hu hok ht => ?_
  cases a with
  | complete =>
    simp only [multiStep] at ht
    obtain ⟨tx, htx, rfl⟩ := Option.map_eq_some_iff.mp ht
    obtain ⟨m, hm⟩ := hu.inv.flight
    obtain ⟨m', -, hm'⟩ := complete_inFlight hm htx
    have hl := complete_later htx
    obtain ⟨d, hs⟩ := hu.swept
    exact ⟨hu.inv.later hl u.toFree ⟨m', hm'⟩ (complete_held hu.inv.held htx), d,
      hs.keep hl.cur rfl fun i hi => (congrFun hl.skb i).trans hi⟩
  | send p env =>
    simp only [multiStep] at ht
    split at ht
    · rename_i hn
      obtain rfl := Option.some.inj ht
      exact sendMulti_idle hu hn hok
    · cases ht

/-- The claim of the ring on what it frees. -/
structure MultiSound (s : TxMulti) : Prop where
  /-- An skb is freed no more often than it was accepted. -/
  atMost : ∀ x, s.tx.freed.count x ≤ (s.tx.accepted.map Packet.skb).count x
  /-- Neither a slot nor a descriptor of the hardware refers to what was accepted once and
  is freed. -/
  released : ∀ x, (s.tx.accepted.map Packet.skb).count x = 1 → x ∈ s.tx.freed →
    ∀ i < maxTfdNum, s.tx.skb i ≠ some x ∧ ¬ ((s.tx.desc i).cown = false ∧ s.owner i = some x)

theorem MultiInv.count {s : TxMulti} (h : MultiInv s []) (x : Nat) :
    (s.tx.accepted.map Packet.skb).count x = s.tx.holding.count x + s.tx.freed.count x := by
  rw [h.perm.count_eq, List.nil_append, List.count_append]

/-- The descriptors of the hardware refer to skbs that are held. -/
theorem MultiInv.owner_held {s : TxMulti} {free : List Nat} (h : MultiInv s free) {i : Nat}
    (hi : i < maxTfdNum) (hown : (s.tx.desc i).cown = false) :
    ∃ x ∈ s.tx.holding, s.owner i = some x := by
  obtain ⟨m, hm⟩ := h.flight
  have ho := h.owned
  rw [Owned, hm.count] at ho
  obtain ⟨k, hk, rfl⟩ := mem_window.mp ((hm.owned hi).mp hown)
  obtain ⟨l, hl, -, x, hx, hs⟩ := ho k hk
  exact ⟨x, List.mem_filterMap.mpr ⟨_, List.mem_range.mpr (Nat.mod_lt _ (by decide)), hs⟩, hx⟩

/-- In every run whose calls are never turned away after their scan has passed an skb left
in its slot, an skb is freed at most once, and only when nothing refers to it. -/
theorem multi_frees_once {s : TxMulti} (h : Reach multiStep MultiSafe multiAlloc s) :
    MultiSound s := by
  have hinv := (multi_idle h).inv
  refine ⟨fun x => by rw [hinv.count]; omega, fun x hx hf i hi => ?_⟩
  have hheld : x ∉ s.tx.holding := by
    intro hmem
    have hc := hinv.count x
    have hpos := List.count_pos_iff.mpr hmem
    have hpos' := List.count_pos_iff.mpr hf
    omega
  refine ⟨fun hs => hheld ?_, fun ho => hheld ?_⟩
  · exact List.mem_filterMap.mpr ⟨i, List.mem_range.mpr hi, hs⟩
  · obtain ⟨y, hy, howner⟩ := hinv.owner_held hi ho.1
    rw [ho.2] at howner
    exact Option.some.inj howner ▸ hy

/-- Sixteen packets come back and a call frees them in its sweep. -/
def sweptPackets : List TxAct :=
  ((List.range 20).map fun x => .send (smallPacket x) {}) ++ List.replicate 17 .complete ++
    [.send (fragPacket 20 3) {}]

theorem multi_frees_once_swept : ∃ s,
    run multiStep MultiSafe sweptPackets multiAlloc = some s ∧
      s.tx.freed = List.range 16 ∧ s.toFree = 16 ∧ MultiSound s := by
  have h : (run multiStep MultiSafe sweptPackets multiAlloc).map (fun s => (s.tx.freed, s.toFree)) =
      some (List.range 16, 16) := by decide +kernel
  obtain ⟨s, hs, hh⟩ := Option.map_eq_some_iff.mp h
  obtain ⟨hf, ht⟩ := Prod.mk.inj hh
  exact ⟨s, hs, hf, ht, multi_frees_once (Reach.start.run sweptPackets hs)⟩

/-- The ring is full and eighteen descriptors are back when a packet with the most fragments
comes: the sweep frees sixteen skbs, the scan notes the next two and is turned away at the
nineteenth descriptor. Their slots are not cleared, so the packet's second try notes them
again. -/
def turnedAway : List TxAct :=
  ((List.range 48).map fun x => .send (smallPacket x) {}) ++ List.replicate 18 .complete ++
    [.send (fragPacket 48 18) {}, .complete, .send (fragPacket 48 18) {}]

theorem multi_frees_twice : ∃ s,
    run multiStep anyStep turnedAway multiAlloc = some s ∧ Reach multiStep anyStep multiAlloc s ∧
      (s.tx.accepted.map Packet.skb).count 16 = 1 ∧ s.tx.freed.count 16 = 2 ∧ ¬ MultiSound s := by
  have h : (run multiStep anyStep turnedAway multiAlloc).map (fun s =>
      ((s.tx.accepted.map Packet.skb).count 16, s.tx.freed.count 16)) = some (1, 2) := by
    decide +kernel
  obtain ⟨s, hs, hh⟩ := Option.map_eq_some_iff.mp h
  obtain ⟨hacc, hfreed⟩ := Prod.mk.inj hh
  refine ⟨s, hs, Reach.start.run turnedAway hs, hacc, hfreed, fun hsound => ?_⟩
  have := hsound.atMost 16
  omega

end SnakeOs.Nic
