import Mathlib.Algebra.Order.BigOperators.Group.List
import Mathlib.Algebra.Order.Ring.Nat
import SnakeOs.Nic.TxOwned

namespace SnakeOs.Nic
open Arch Lib

/-- The descriptors point to the same buffers and the slots hold the same skbs, and no
range has been synchronised between the two states. -/
structure SameBuffers (s t : Tx) : Prop where
  cur : t.cur = s.cur
  skb : t.skb = s.skb
  synced : t.synced = s.synced
  buffer : ∀ i, (t.desc i).dataPtr = (s.desc i).dataPtr ∧ (t.desc i).length = (s.desc i).length

theorem SameBuffers.refl (s : Tx) : SameBuffers s s := ⟨rfl, rfl, rfl, fun _ => ⟨rfl, rfl⟩⟩

theorem SameBuffers.trans {s t u : Tx} (h : SameBuffers s t) (h' : SameBuffers t u) :
    SameBuffers s u where
  cur := h'.cur.trans h.cur
  skb := h'.skb.trans h.skb
  synced := h'.synced.trans h.synced
  buffer := fun i => ⟨(h'.buffer i).1.trans (h.buffer i).1, (h'.buffer i).2.trans (h.buffer i).2⟩

/-- Only the flags of one descriptor change. -/
theorem SameBuffers.update {s t : Tx} {i : Nat} {d : TxDesc} (hcur : t.cur = s.cur)
    (hskb : t.skb = s.skb) (hsync : t.synced = s.synced) (hdesc : t.desc = Function.update s.desc i d)
    (hp : d.dataPtr = (s.desc i).dataPtr) (hl : d.length = (s.desc i).length) :
    SameBuffers s t := by
  refine ⟨hcur, hskb, hsync, fun k => ?_⟩
  rw [hdesc]
  by_cases hk : k = i
  · subst hk
    rw [Function.update_self]
    exact ⟨hp, hl⟩
  · rw [Function.update_of_ne hk]
    exact ⟨rfl, rfl⟩

theorem completions_sameBuffers (n : Nat) (s : Tx) : SameBuffers s (completions n s) := by
  induction n generalizing s with
  | zero => exact SameBuffers.refl s
  | succ n ih =>
    simp only [completions]
    cases ht : complete s with
    | none => exact SameBuffers.refl s
    | some t =>
      simp only [complete] at ht
      split at ht
      · obtain rfl := Option.some.inj ht
        refine SameBuffers.trans ?_ (ih _)
        exact SameBuffers.update rfl rfl rfl rfl rfl rfl
      · cases ht

theorem scan_sameBuffers (hw : Nat → Nat) (nrFrags r idx : Nat) (free : Reclaim) (s : Tx) :
    SameBuffers s (scan hw nrFrags r idx free s).1 := by
  induction r generalizing idx free s with
  | zero => exact SameBuffers.refl s
  | succ r ih =>
    have hc := completions_sameBuffers (hw (nrFrags - r)) s
    simp only [scan]
    split
    · exact hc
    · refine (hc.trans ?_).trans (ih _ _ _)
      exact SameBuffers.update rfl rfl rfl rfl rfl rfl

theorem give_sameBuffers (hw : Nat → Nat) (r idx : Nat) (s : Tx) :
    SameBuffers s (give hw r idx s) := by
  induction r generalizing idx s with
  | zero => exact SameBuffers.refl s
  | succ r ih =>
    simp only [give]
    refine ((completions_sameBuffers (hw r) s).trans ?_).trans (ih _ _)
    exact SameBuffers.update rfl rfl rfl rfl rfl rfl

/-- The ring of a call that found its descriptors, when it is about to hand over the
first of them. -/
def beforeHandOver (s : Tx) (p : Packet) (env : SendEnv) : Tx :=
  fillFrags p.skb env.offset p.frags (ethZlen - p.linear)
    (fillFirst (scan env.hw p.frags.length (p.frags.length + 1) s.cur {} s).1 p)

/-- From there on the buffers stay as they are. -/
theorem handOver_sameBuffers {s : Tx} {p : Packet} {env : SendEnv}
    (hok : (sendPacket s p env).2 = .ok) :
    SameBuffers (beforeHandOver s p env) (sendPacket s p env).1 := by
  unfold beforeHandOver sendPacket at *
  generalize scan env.hw p.frags.length (p.frags.length + 1) s.cur {} s = res at *
  obtain ⟨t, free⟩ := res
  cases free with
  | none => cases hok
  | some free =>
    have hgive := give_sameBuffers (fun r => env.hw (p.frags.length + 1 + r)) (p.frags.length + 1)
      t.cur (fillFrags p.skb env.offset p.frags (ethZlen - p.linear) (fillFirst t p))
    exact ⟨hgive.cur, hgive.skb, hgive.synced, hgive.buffer⟩

/-- `cur_index` stays inside the ring in every run. -/
theorem reach_cur {s : Tx} (h : Reach txStep anyStep txAlloc s) : s.cur < maxTfdNum := by
  refine h.invariant (I := fun s => s.cur < maxTfdNum) (by decide) fun u a t hu _ ht => ?_
  cases a with
  | complete =>
    simp only [txStep, complete] at ht
    split at ht
    · obtain rfl := Option.some.inj ht
      exact hu
    · cases ht
  | send p env =>
    simp only [txStep] at ht
    split at ht
    · rename_i hn
      obtain rfl := Option.some.inj ht
      have hscan := scan_sameBuffers env.hw p.frags.length (p.frags.length + 1) u.cur {} u
      cases hres : (sendPacket u p env).2 with
      | ok =>
        have hfill := packet_filled (p := p) env.offset (hscan.cur ▸ hu) (frags_lt hn)
        have hcur := (handOver_sameBuffers hres).cur
        rw [hcur, beforeHandOver, hfill.cur]
        exact Nat.mod_lt _ (by decide)
      | busy =>
        unfold sendPacket at hres ⊢
        generalize scan env.hw p.frags.length (p.frags.length + 1) u.cur {} u = res at *
        obtain ⟨v, free⟩ := res
        cases free with
        | none => exact hscan.cur ▸ hu
        | some free => cases hres
    · cases ht

/-- The descriptors of an accepted packet are those of its parts. -/
theorem sent_parts {s : Tx} {p : Packet} {env : SendEnv} (hs : s.cur < maxTfdNum)
    (hn : p.frags.length ≤ maxSkbFrags) (hok : (sendPacket s p env).2 = .ok) {k : Nat}
    (hk : k < p.parts.length) :
    ((sendPacket s p env).1.desc ((s.cur + k) % maxTfdNum)).dataPtr = p.parts[k].1 ∧
      ((sendPacket s p env).1.desc ((s.cur + k) % maxTfdNum)).length = p.parts[k].2 := by
  have hscan := scan_sameBuffers env.hw p.frags.length (p.frags.length + 1) s.cur {} s
  have hfill := packet_filled (p := p) env.offset (hscan.cur ▸ hs) (frags_lt hn)
  obtain ⟨hptr, hlen⟩ := (handOver_sameBuffers hok).buffer ((s.cur + k) % maxTfdNum)
  have hbuf := hfill.buffers k hk
  rw [hscan.cur] at hbuf
  exact ⟨hptr.trans hbuf.1, hlen.trans hbuf.2⟩

/-! The lengths. -/

/-- The size of the k-th part of a packet: the linear part, then the fragments. -/
def Packet.size (p : Packet) : Nat → Nat
  | 0 => p.linear
  | k + 1 => (p.frags.map fun f => f.size.toNat).getD k 0

/-- The bytes of a packet. -/
def Packet.total (p : Packet) : Nat := p.linear + (p.frags.map fun f => f.size.toNat).sum

/-- The length in the k-th descriptor of the packet sent from `cur`. -/
def Tx.lengthAt (t : Tx) (cur k : Nat) : Nat := (t.desc ((cur + k) % maxTfdNum)).length.toNat

/-- The descriptors carry the parts as they are, with the padding at the end. -/
structure LengthsExact (t : Tx) (cur : Nat) (p : Packet) : Prop where
  sum : ((List.range (p.frags.length + 1)).map (t.lengthAt cur)).sum = max pktMinSize p.total
  own : ∀ k < p.frags.length, t.lengthAt cur k = p.size k

/-- The linear part fits the length field, and a packet of several fragments is no
shorter than the minimum with the first of them. -/
def Packet.Measured (p : Packet) : Prop :=
  p.linear < 2 ^ 16 ∧ (p.frags.length ≤ 1 ∨ pktMinSize ≤ p.size 0 + p.size 1)

/-- A fragment is written with its own size or, where that is more, with all that is
missing to the minimum size. -/
theorem fragPart_length (frag : Frag) {paddingSize : Int} (h : paddingSize ≤ ethZlen) :
    ((fragPart frag (paddingSize - frag.size.toNat)).2.toNat : Int) =
      max paddingSize frag.size.toNat := by
  have hsize := frag.size.isLt
  simp only [ethZlen] at h
  unfold fragPart
  by_cases hp : paddingSize - frag.size.toNat > 0
  · simp only [hp, if_true, BitVec.toNat_add, BitVec.toNat_ofInt]
    omega
  · simp only [hp, if_false]
    omega

theorem fragParts_own (frags : List Frag) {paddingSize : Int} (h : paddingSize ≤ 0) :
    (fragParts frags paddingSize).map (fun part => part.2.toNat) =
      frags.map fun f => f.size.toNat := by
  induction frags generalizing paddingSize with
  | nil => rfl
  | cons frag rest ih =>
    have hmin : paddingSize ≤ ethZlen := by
      simp only [ethZlen]
      omega
    have hlen := fragPart_length frag hmin
    rw [fragParts, List.map_cons, List.map_cons, ih (by omega)]
    congr 1
    omega

theorem firstPart_length {p : Packet} (h : p.linear < 2 ^ 16) :
    (firstPart p).2.toNat = if p.frags = [] then max pktMinSize p.linear else p.linear := by
  simp only [firstPart, BitVec.toNat_ofNat, pktMinSize]
  by_cases hf : p.frags = []
  · simp only [hf, true_and, if_true]
    split <;> omega
  · simp only [hf, false_and, if_false]
    omega

theorem lengths_eq {s : Tx} {p : Packet} {env : SendEnv} (hs : s.cur < maxTfdNum)
    (hn : p.frags.length ≤ maxSkbFrags) (hok : (sendPacket s p env).2 = .ok) :
    (List.range (p.frags.length + 1)).map ((sendPacket s p env).1.lengthAt s.cur) =
      p.parts.map fun part => part.2.toNat := by
  refine List.ext_getElem (by simp) fun k hk hk' => ?_
  rw [List.length_map] at hk'
  have hlen := (sent_parts hs hn hok hk').2
  simp only [List.getElem_map, List.getElem_range, Tx.lengthAt, hlen]

theorem lengthAt_eq {s : Tx} {p : Packet} {env : SendEnv} (hs : s.cur < maxTfdNum)
    (hn : p.frags.length ≤ maxSkbFrags) (hok : (sendPacket s p env).2 = .ok) {k : Nat}
    (hk : k < p.parts.length) :
    (sendPacket s p env).1.lengthAt s.cur k = p.parts[k].2.toNat := by
  rw [Tx.lengthAt, (sent_parts hs hn hok hk).2]

theorem LengthsExact.linear_lt {s : Tx} {p : Packet} {env : SendEnv} (hs : s.cur < maxTfdNum)
    (hn : p.frags.length ≤ maxSkbFrags) (hok : (sendPacket s p env).2 = .ok)
    (he : LengthsExact (sendPacket s p env).1 s.cur p) : p.linear < 2 ^ 16 := by
  have h0 := lengthAt_eq hs hn hok (k := 0) (by simp)
  have hlt := (firstPart p).2.isLt
  by_cases hnil : p.frags = []
  · have hsum := he.sum
    simp only [hnil, List.length_nil, Nat.zero_add, List.range_one, List.map_cons, List.map_nil,
      List.sum_cons, List.sum_nil, Nat.add_zero, h0, Packet.total, Packet.parts,
      List.getElem_cons_zero] at hsum
    omega
  · have hown := he.own 0 (List.length_pos_iff.mpr hnil)
    rw [h0] at hown
    simp only [Packet.parts, List.getElem_cons_zero, Packet.size] at hown
    omega

/-- A first fragment that is not the last has no room for padding. -/
theorem LengthsExact.second {s : Tx} {p : Packet} {env : SendEnv} (hs : s.cur < maxTfdNum)
    (hn : p.frags.length ≤ maxSkbFrags) (hok : (sendPacket s p env).2 = .ok)
    (he : LengthsExact (sendPacket s p env).1 s.cur p) (hmany : ¬ p.frags.length ≤ 1) :
    pktMinSize ≤ p.size 0 + p.size 1 := by
  have hown := he.own 1 (by omega)
  rw [lengthAt_eq hs hn hok (by simp; omega)] at hown
  obtain ⟨f, g, rest, hfs⟩ : ∃ f g rest, p.frags = f :: g :: rest := by
    rcases hfrags : p.frags with _ | ⟨f, _ | ⟨g, rest⟩⟩
    · simp [hfrags] at hmany
    · simp [hfrags] at hmany
    · exact ⟨f, g, rest, rfl⟩
  have hpadding : (ethZlen : Int) - p.linear ≤ ethZlen := by omega
  have hlen := fragPart_length f hpadding
  simp only [Packet.parts, hfs, fragParts, List.getElem_cons_succ, List.getElem_cons_zero,
    Packet.size, List.map_cons, List.getD_cons_zero, pktMinSize, ethZlen] at hown hlen ⊢
  omega

/-- Of a packet that reaches the minimum with its first fragment no part is padded. -/
theorem parts_measured {p : Packet} {f : Frag} {rest : List Frag} (hfrags : p.frags = f :: rest)
    (hlin : p.linear < 2 ^ 16) (hpad : pktMinSize ≤ p.linear + f.size.toNat) :
    p.parts.map (fun part => part.2.toNat) = p.linear :: p.frags.map fun f => f.size.toNat := by
  have hpadding : (ethZlen : Int) - p.linear ≤ ethZlen := by omega
  have hlen := fragPart_length f hpadding
  have hfirst := firstPart_length hlin
  rw [if_neg (by simp [hfrags])] at hfirst
  have hmin : (ethZlen : Int) = pktMinSize := rfl
  have hnone : (ethZlen : Int) - p.linear - f.size.toNat ≤ 0 := by omega
  have hrest := fragParts_own rest hnone
  have hhead : (fragPart f (ethZlen - p.linear - f.size.toNat)).2.toNat = f.size.toNat := by
    omega
  rw [Packet.parts, hfrags, List.map_cons, fragParts, List.map_cons, hrest, hfirst, hhead]
  rfl

theorem parts_size {p : Packet} (hall : p.parts.map (fun part => part.2.toNat) =
    p.linear :: p.frags.map fun f => f.size.toNat) {k : Nat} (hk : k < p.parts.length) :
    p.parts[k].2.toNat = p.size k := by
  have hget : (p.parts.map fun part => part.2.toNat)[k]? = some p.parts[k].2.toNat := by
    rw [List.getElem?_map, List.getElem?_eq_getElem hk, Option.map_some]
  rw [hall] at hget
  cases k with
  | zero => simpa [Packet.size] using hget.symm
  | succ k =>
    rw [List.getElem?_cons_succ] at hget
    rw [Packet.size, List.getD_eq_getElem?_getD, hget, Option.getD_some]

/-- The lengths of the descriptors add up, each part with its own size and the padding in
the last, exactly for the packets that are `Measured`. -/
theorem lengths_exact_iff {s : Tx} (h : Reach txStep anyStep txAlloc s) (p : Packet) (env : SendEnv)
    (hn : p.frags.length ≤ maxSkbFrags) (hok : (sendPacket s p env).2 = .ok) :
    LengthsExact (sendPacket s p env).1 s.cur p ↔ p.Measured := by
  have hs := reach_cur h
  have hlens := lengths_eq hs hn hok
  constructor
  · intro he
    exact ⟨he.linear_lt hs hn hok, or_iff_not_imp_left.mpr (he.second hs hn hok)⟩
  · rintro ⟨hlin, hshort⟩
    have hfirst := firstPart_length hlin
    rcases hfrags : p.frags with _ | ⟨f, _ | ⟨g, rest⟩⟩
    · refine ⟨?_, fun k hk => by simp [hfrags] at hk⟩
      rw [hlens]
      simp [Packet.parts, hfrags, fragParts, hfirst, Packet.total]
    · have hpadding : (ethZlen : Int) - p.linear ≤ ethZlen := by omega
      have hlen := fragPart_length f hpadding
      rw [if_neg (by simp [hfrags])] at hfirst
      refine ⟨?_, fun k hk => ?_⟩
      · rw [hlens]
        simp only [Packet.parts, hfrags, fragParts, hfirst, Packet.total, List.map_cons, List.map_nil,
          List.sum_cons, List.sum_nil, pktMinSize, ethZlen] at hlen ⊢
        omega
      · obtain rfl : k = 0 := by
          simp only [hfrags, List.length_singleton] at hk
          omega
        rw [lengthAt_eq hs hn hok (by simp)]
        exact hfirst
    · have hpad : pktMinSize ≤ p.linear + f.size.toNat := by
        rcases hshort with h1 | h1
        · simp [hfrags] at h1
        · simpa [Packet.size, hfrags] using h1
      have hall := parts_measured hfrags hlin hpad
      refine ⟨?_, fun k hk => ?_⟩
      · rw [hlens, hall, List.sum_cons, Packet.total, hfrags]
        simp only [List.map_cons, List.sum_cons, pktMinSize] at hpad ⊢
        omega
      · have hk' : k < p.parts.length := by simp; omega
        rw [lengthAt_eq hs hn hok hk']
        exact parts_size hall hk'

/-- A short packet in one fragment, with the padding behind it. -/
def shortFragment : Packet := ⟨0, 0xC0100000, 42, 28, [⟨0xC0200000, 0, 28⟩]⟩

theorem shortFragment_lengths : (sendPacket txAlloc shortFragment {}).2 = .ok ∧
    LengthsExact (sendPacket txAlloc shortFragment {}).1 0 shortFragment :=
  ⟨rfl, (lengths_exact_iff Reach.start shortFragment {} (by decide) rfl).mpr
    ⟨by decide, .inl (by decide)⟩⟩

/-- A linear part of 14 bytes and two fragments of 10. -/
def shortFragments : Packet :=
  ⟨0, 0xC0100000, 34, 20, [⟨0xC0200000, 0, 10⟩, ⟨0xC0300000, 0, 10⟩]⟩

/-- The padding is added to the first fragment, and again to the second. -/
theorem shortFragments_padded_twice : (sendPacket txAlloc shortFragments {}).2 = .ok ∧
    0 < shortFragments.linear ∧ (∀ f ∈ shortFragments.frags, 0 < f.size.toNat) ∧
      ¬LengthsExact (sendPacket txAlloc shortFragments {}).1 0 shortFragments := by
  refine ⟨rfl, by decide, by decide, fun he => ?_⟩
  have hown : (sendPacket txAlloc shortFragments {}).1.lengthAt 0 1 = shortFragments.size 1 :=
    he.own 1 (by decide)
  have hlen : (sendPacket txAlloc shortFragments {}).1.lengthAt 0 1 = 46 := by decide
  rw [hlen] at hown
  exact absurd hown (by decide)

/-! The ranges synchronised. -/

/-- The bytes of a buffer. -/
def InBuffer (a : U32) (n : Nat) (x : U32) : Prop := ∃ i < n, x = a + BitVec.ofNat 32 i

/-- The ranges a call gives to `consistent_sync` before it hands a descriptor over. -/
def issued (s : Tx) (p : Packet) (env : SendEnv) : List (U32 × Nat) :=
  (beforeHandOver s p env).synced.drop s.synced.length

/-- They hold every byte the descriptors of the call make the hardware read. -/
def CoversWindow (s : Tx) (p : Packet) (env : SendEnv) : Prop :=
  ∀ k ≤ p.frags.length, ∀ x,
    InBuffer ((sendPacket s p env).1.desc ((s.cur + k) % maxTfdNum)).dataPtr
      ((sendPacket s p env).1.lengthAt s.cur k) x →
    ∃ r ∈ issued s p env, InBuffer (virtToPhys r.1) r.2 x

/-- The fragments, with their padding, lie inside the linear part. -/
def Packet.FragsInLinear (p : Packet) : Prop :=
  ∀ part ∈ fragParts p.frags (ethZlen - p.linear), ∀ x, InBuffer part.1 part.2.toNat x →
    InBuffer (virtToPhys p.data) (firstPart p).2.toNat x

theorem fillFrags_synced (skb : Nat) (offset : U32) (frags : List Frag) (paddingSize : Int)
    (s : Tx) : (fillFrags skb offset frags paddingSize s).synced =
      s.synced ++ frags.map fun f => (f.page + offset, f.size.toNat) := by
  induction frags generalizing paddingSize s with
  | nil => simp [fillFrags]
  | cons frag rest ih =>
    rw [fillFrags, ih, List.map_cons]
    simp [fillSlot]

theorem issued_eq (s : Tx) (p : Packet) (env : SendEnv) :
    issued s p env = (p.data, (firstPart p).2.toNat) ::
      p.frags.map fun f => (f.page + env.offset, f.size.toNat) := by
  have hscan := scan_sameBuffers env.hw p.frags.length (p.frags.length + 1) s.cur {} s
  have hall : (beforeHandOver s p env).synced = s.synced ++ ((p.data, (firstPart p).2.toNat) ::
      p.frags.map fun f => (f.page + env.offset, f.size.toNat)) := by
    rw [beforeHandOver, fillFrags_synced]
    simp [fillFirst, fillSlot, hscan.synced]
  rw [issued, hall, List.drop_left]

theorem exists_not_mem {w : Nat} {l : List (BitVec w)} (h : l.length < 2 ^ w) : ∃ x, x ∉ l := by
  by_contra hall
  push Not at hall
  have hnodup : ((List.range (2 ^ w)).map (BitVec.ofNat w)).Nodup := by
    refine List.Nodup.map_on ?_ List.nodup_range
    intro i hi j hj he
    have hval := congrArg BitVec.toNat he
    rwa [BitVec.toNat_ofNat, BitVec.toNat_ofNat, Nat.mod_eq_of_lt (List.mem_range.mp hi),
      Nat.mod_eq_of_lt (List.mem_range.mp hj)] at hval
  have hle := (List.subperm_of_subset hnodup fun x _ => hall x).length_le
  rw [List.length_map, List.length_range] at hle
  omega

/-- Whatever byte is asked for, the variable `offset` can hold a value with which none of
the fragments' ranges has it. -/
theorem exists_offset {frags : List Frag} (h : frags.length ≤ maxSkbFrags) (x : U32) :
    ∃ offset : U32, ∀ f ∈ frags, ¬InBuffer (virtToPhys (f.page + offset)) f.size.toNat x := by
  -- the values with which some range has it are fewer than the values there are
  set bad : List U32 := frags.flatMap fun f =>
    (List.range f.size.toNat).map fun i => x - BitVec.ofNat 32 i + pageOffset - f.page with hbad
  have hlen : bad.length ≤ frags.length * 65535 := by
    rw [hbad, List.length_flatMap]
    refine (List.sum_le_card_nsmul _ 65535 fun n hn => ?_).trans (by simp)
    obtain ⟨f, _, rfl⟩ := List.mem_map.mp hn
    have := f.size.isLt
    simp
    omega
  obtain ⟨offset, hoff⟩ := exists_not_mem (l := bad) (by
    simp only [maxSkbFrags] at h
    omega)
  refine ⟨offset, fun f hf hin => hoff ?_⟩
  obtain ⟨i, hi, hx⟩ := hin
  refine List.mem_flatMap.mpr ⟨f, hf, List.mem_map.mpr ⟨i, List.mem_range.mpr hi, ?_⟩⟩
  rw [hx, virtToPhys]
  bv_omega

theorem sendPacket_offset {s : Tx} {p : Packet} {env : SendEnv} (offset : U32)
    (hok : (sendPacket s p env).2 = .ok) :
    (sendPacket s p { env with offset := offset }).2 = .ok := by
  unfold sendPacket at *
  generalize scan env.hw p.frags.length (p.frags.length + 1) s.cur {} s = res at *
  obtain ⟨t, free⟩ := res
  cases free with
  | none => cases hok
  | some free => rfl

/-- The ranges a call synchronises hold what the hardware reads, whatever its uninitialised
variable `offset` is, exactly when the range of the linear part does. -/
theorem covers_window_iff {s : Tx} (h : Reach txStep anyStep txAlloc s) (p : Packet)
    (env : SendEnv) (hn : p.frags.length ≤ maxSkbFrags) (hok : (sendPacket s p env).2 = .ok) :
    (∀ offset, CoversWindow s p { env with offset := offset }) ↔ p.FragsInLinear := by
  have hs := reach_cur h
  constructor
  · intro hall part hpart x hx
    obtain ⟨offset, hoff⟩ := exists_offset hn x
    obtain ⟨k, hk, hkp⟩ := List.getElem_of_mem hpart
    rw [length_fragParts] at hk
    have hk' : k + 1 < p.parts.length := by simp; omega
    have hpk : p.parts[k + 1] = part := by simp [Packet.parts, hkp]
    have hok' := sendPacket_offset offset hok
    obtain ⟨r, hr, hxr⟩ := hall offset (k + 1) (by omega) x (by
      rw [(sent_parts hs hn hok' hk').1, lengthAt_eq hs hn hok' hk', hpk]
      exact hx)
    rw [issued_eq] at hr
    rcases List.mem_cons.mp hr with rfl | hr
    · exact hxr
    · obtain ⟨f, hf, rfl⟩ := List.mem_map.mp hr
      exact absurd hxr (hoff f hf)
  · intro hin offset k hk x hx
    have hok' := sendPacket_offset offset hok
    have hk' : k < p.parts.length := by simp; omega
    rw [(sent_parts hs hn hok' hk').1, lengthAt_eq hs hn hok' hk'] at hx
    refine ⟨(p.data, (firstPart p).2.toNat), by rw [issued_eq]; exact List.mem_cons_self, ?_⟩
    cases k with
    | zero => exact hx
    | succ k =>
      refine hin p.parts[k + 1] ?_ x hx
      simp only [Packet.parts, List.getElem_cons_succ]
      exact List.getElem_mem _

theorem smallPacket_covered : (sendPacket txAlloc (smallPacket 0) {}).2 = .ok ∧
    ∀ offset, CoversWindow txAlloc (smallPacket 0) { offset := offset } :=
  ⟨rfl, (covers_window_iff Reach.start (smallPacket 0) {} (by decide) rfl).mpr
    fun _ hp => absurd hp List.not_mem_nil⟩

/-- A fragment at byte 256 of its page, with 0 found in `offset`: its first byte is
not in the range synchronised. -/
theorem fragment_not_synced :
    ∃ p : Packet, (sendPacket txAlloc p {}).2 = .ok ∧ ¬CoversWindow txAlloc p {} := by
  refine ⟨⟨0, 0xC0100000, 200, 100, [⟨0xC0200000, 256, 100⟩]⟩, rfl, fun hc => ?_⟩
  obtain ⟨r, hr, i, hi, hx⟩ := hc 1 (by decide) 0x00200100 ⟨0, by decide, by decide⟩
  rw [issued_eq] at hr
  rcases List.mem_cons.mp hr with rfl | hr
  · have hi' : i < 100 := hi
    simp only [virtToPhys, pageOffset] at hx
    bv_omega
  · obtain rfl := List.mem_singleton.mp hr
    have hi' : i < 100 := hi
    simp only [virtToPhys, pageOffset] at hx
    bv_omega

end SnakeOs.Nic
