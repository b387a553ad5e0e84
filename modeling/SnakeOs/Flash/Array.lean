import SnakeOs.Flash.Device

namespace SnakeOs.Flash
open Arch

theorem frameEffect_erase {f : Frame} {k : Nat} (m : Lib.Nor 8) (hop : opcode f = some seOpcode)
    (hk : frameAddress f / spiFlashSectorSize = k) :
    frameEffect m f = m.erase (k * spiFlashSectorSize) spiFlashSectorSize := by
  have hne : opcode f ≠ some ppOpcode := by
    rw [hop]
    decide
  rw [frameEffect, if_neg hne, if_pos hop, hk]
  funext a
  have hiff : a / spiFlashSectorSize = k ↔
      k * spiFlashSectorSize ≤ a ∧ a < k * spiFlashSectorSize + spiFlashSectorSize := by
    rw [spiFlashSectorSize]
    omega
  simp only [Lib.Nor.erase, hiff]
  rfl

theorem frameEffect_program {f : Frame} {dst n : Nat} (m : Lib.Nor 8) (buf : Nat → Nat)
    (hop : opcode f = some ppOpcode)
    (hf : frameBytes f = (List.range n).map fun i => (dst + i, buf i % 256)) :
    frameEffect m f = m.program dst n fun i => BitVec.ofNat 8 (buf i) := by
  rw [frameEffect, if_pos hop, hf]
  exact store_range m dst n fun i => BitVec.ofNat 8 (buf i)

/-- A genuine part never refuses a sector of its own. -/
theorem sectorErase_yields {g : Bank} {s : Spi} (c : Chip) {i : Nat} (h : Resting g s)
    (hi : i < g.info.sectors) (d : Device) :
    ∃ fs, Yields g s (sectorErase g c (sectorStart g i) s).2 (sectorErase g c (sectorStart g i) s).1
      d ⟨d.array.erase (i * spiFlashSectorSize) spiFlashSectorSize, false⟩ fs := by
  obtain ⟨hsz, hn⟩ := bank_sectors g
  have haddr : sectorStart g i = i * 65536 := by
    unfold sectorStart
    rw [hsz]
    omega
  have hres := sectorErase_resting c (sectorStart g i) h
  obtain ⟨fs, hy⟩ := setWriteEnable_yields c h d
  obtain ⟨hr, hb, _⟩ := setWriteEnable_enabled c h
  simp only [sectorErase, haddr, hsz] at hres ⊢
  rw [if_neg (by omega)] at hres ⊢
  cases hok : (setWriteEnable c s).1 with
  | false =>
    rw [hok] at hy
    simp only [Bool.false_eq_true, ↓reduceIte]
    exact ⟨fs, hy.refused _⟩
  | true =>
    simp only [hok, ↓reduceIte] at hres ⊢
    obtain ⟨f, hf⟩ := ((Opened.start hr.cur).shift c seOpcode).finishAddress c (i * 65536)
    simp only [List.nil_append, List.cons_append] at hf
    have hop : opcode f = some seOpcode := hf.leads
    have ha : frameAddress f = i * 65536 % 2 ^ 24 :=
      frameAddress_eq (b := seOpcode % 256) [] (by simp [hf.sent])
    have hk : frameAddress f / spiFlashSectorSize = i := by
      rw [ha, spiFlashSectorSize]
      omega
    rw [hok] at hy
    rw [← frameEffect_erase d.array hop hk]
    exact ⟨fs ++ [f], hy.latched hb hf hres (.inr hop)⟩

/-- A chunk inside its page is programmed by a genuine part. -/
theorem pageProgram_yields {g : Bank} {s : Spi} (c : Chip) {address len : Nat} (buf : Nat → Nat)
    (h : Resting g s) (hl : 0 < len) (hp : address % 256 + len ≤ 256)
    (hfit : address + len ≤ g.size) (d : Device) :
    ∃ fs, Yields g s (pageProgramDataBytes g c address buf len s).2
      (pageProgramDataBytes g c address buf len s).1 d
      ⟨d.array.program address len fun i => BitVec.ofNat 8 (buf i), false⟩ fs := by
  obtain ⟨hbig, hpages⟩ := bank_size g
  have hpred : predU32 len = len - 1 := if_neg (by omega)
  have hmod : (address + predU32 len) % 2 ^ 32 = address + len - 1 := by
    rw [hpred]
    omega
  have hres := pageProgram_resting c address buf len h (by omega) (by omega)
  obtain ⟨fs, hy⟩ := setWriteEnable_yields c h d
  obtain ⟨hr, hb, _⟩ := setWriteEnable_enabled c h
  unfold pageProgramDataBytes at hres ⊢
  rw [if_neg (by rw [bank_pageSize]; omega), if_neg (by omega), hmod, bank_pageSize,
    if_neg (by omega)] at hres ⊢
  cases hok : (setWriteEnable c s).1 with
  | false =>
    rw [hok] at hy
    simp only [hok, Bool.not_false, ↓reduceIte]
    exact ⟨fs, hy.refused _⟩
  | true =>
    simp only [hok, Bool.not_true, Bool.false_eq_true, ↓reduceIte] at hres ⊢
    have ho := ((Opened.start hr.cur).shift c ppOpcode).address c address
    obtain ⟨f, hf, _⟩ := (ho.programLoop c buf (predU32 len) 0).finish c (buf (predU32 len))
    have hop : opcode f = some ppOpcode := hf.leads
    have hbytes : f.map Xchg.tx = ppOpcode % 256 :: addressBytes address ++
        (List.range len).map fun i => buf i % 256 := by
      obtain ⟨k, rfl⟩ : ∃ k, len = k + 1 := ⟨len - 1, by omega⟩
      rw [hf.sent, hpred, List.range_succ]
      simp [List.range_eq_range']
    have hdata := frameBytes_eq hbytes (by omega) hp
    rw [hok] at hy
    rw [← frameEffect_program d.array buf hop hdata]
    exact ⟨fs ++ [f], hy.latched hb hf hres (.inl hop)⟩

/-- The erasing loop over sectors of the part. -/
theorem eraseLoop_yields {g : Bank} (c : Chip) (n i : Nat) {s : Spi} (h : Resting g s)
    (hi : i + n ≤ g.info.sectors) (d : Device) :
    ∃ fs e, Yields g s (eraseLoop g c n i s).2 (eraseLoop g c n i s).1 d e fs ∧
      e.array = d.array.erase (i * spiFlashSectorSize) (n * spiFlashSectorSize) := by
  induction n generalizing i s d with
  | zero => exact ⟨[], d, ⟨by simp [eraseLoop], h, fun _ => ⟨rfl, rfl⟩⟩, by simp⟩
  | succ n ih =>
    obtain ⟨fs, hy⟩ := sectorErase_yields c h (show i < g.info.sectors by omega) d
    simp only [eraseLoop]
    cases hok : (sectorErase g c (sectorStart g i) s).1 with
    | false =>
      rw [hok] at hy
      simp only [Bool.false_eq_true, ↓reduceIte]
      exact ⟨fs, ⟨_, false⟩, hy.refused _, rfl⟩
    | true =>
      rw [hok] at hy
      simp only [↓reduceIte]
      obtain ⟨gs, e, hrest, he⟩ := ih (i + 1) hy.resting (by omega) _
      refine ⟨fs ++ gs, e, hy.trans hrest, ?_⟩
      rw [he, Nat.add_mul, Nat.one_mul, Lib.Nor.erase_append, Nat.add_mul, Nat.one_mul,
        Nat.add_comm spiFlashSectorSize]

/-- The chunk loop where no chunk crosses a page. -/
theorem writeLoop_yields {g : Bank} (c : Chip) (dst : Nat) (buf : Nat → Nat) (n left total : Nat)
    {s : Spi} (h : Resting g s) (hn : left ≤ n) (hfit : dst + total + left ≤ g.size)
    (hp : InPages (dst + total) left) (d : Device) :
    ∃ fs e, Yields g s (writeLoop g c dst buf n left total s).spi
        ((writeLoop g c dst buf n left total s).ret == 0) d e fs ∧
      e.array = d.array.program (dst + total) left (fun i => BitVec.ofNat 8 (buf (total + i))) ∧
      ((writeLoop g c dst buf n left total s).ret = 0 →
        (writeLoop g c dst buf n left total s).retlen = some (total + left)) := by
  induction n generalizing left total s d with
  | zero =>
    obtain rfl : left = 0 := by omega
    exact ⟨[], d, ⟨by simp [writeLoop], h, fun _ => ⟨rfl, rfl⟩⟩, by simp, fun _ => rfl⟩
  | succ n ih =>
    unfold writeLoop
    by_cases hleft : left = 0
    · subst left
      exact ⟨[], d, ⟨by simp, h, fun _ => ⟨rfl, rfl⟩⟩, by simp, fun _ => rfl⟩
    · rw [if_neg hleft]
      obtain ⟨hpos, _, hle, _⟩ := progSize_spec g (Nat.pos_of_ne_zero hleft)
      have hbig := (bank_size g).1
      have haddr : toU32 ((dst : Int) + (total : Int)) = dst + total := by
        rw [← Int.natCast_add]
        exact toU32_natCast (by omega)
      obtain ⟨hfirst, hrest⟩ := hp.chunk (g := g) (Nat.pos_of_ne_zero hleft)
      rw [haddr]
      obtain ⟨fs, hy⟩ := pageProgram_yields c (fun ii => buf (total + ii)) h hpos hfirst
        (by omega) d
      cases hok : (pageProgramDataBytes g c (dst + total) (fun ii => buf (total + ii))
        (progSize g left) s).1 with
      | false =>
        rw [hok] at hy
        simp only [hok, Bool.false_eq_true, ↓reduceIte]
        exact ⟨fs, ⟨_, false⟩, hy.refused _, rfl, fun hz => absurd hz (by decide)⟩
      | true =>
        rw [hok] at hy
        simp only [hok, ↓reduceIte]
        rw [Nat.add_assoc] at hrest
        obtain ⟨gs, e, hr, he, hlen⟩ := ih (left - progSize g left) (total + progSize g left)
          hy.resting (by omega) (by omega) hrest _
        refine ⟨fs ++ gs, e, hy.trans hr, ?_, fun hz => ?_⟩
        · have hcat := Lib.Nor.program_append d.array (dst + total) (progSize g left)
            (left - progSize g left) fun i => BitVec.ofNat 8 (buf (total + i))
          rw [Nat.add_sub_cancel' hle] at hcat
          rw [he, ← hcat]
          simp only [Nat.add_assoc]
        · rw [hlen hz, Nat.add_assoc, Nat.add_sub_cancel' hle]

/-- The bytes that `readLoop` returns are the answers it left in the open frame. -/
theorem readLoop_cur (c : Chip) (n : Nat) (s : Spi) :
    ∃ xs, (readLoop c n s).2.cur = s.cur ++ xs ∧ xs.length = n ∧
      (readLoop c n s).1 = xs.map fun x => x.rx % 256 := by
  induction n generalizing s with
  | zero => exact ⟨[], by simp [readLoop], rfl, rfl⟩
  | succ n ih =>
    obtain ⟨xs, hcur, hlen, hbytes⟩ := ih (bufferTransmitReceive c false 0xFF s).2
    simp only [readLoop]
    refine ⟨⟨false, 0xFF, s.answer c, s.busy != 0⟩ :: xs, ?_, by simp [hlen], ?_⟩
    · rw [hcur]
      simp [bufferTransmitReceive]
    · rw [hbytes]
      simp [bufferTransmitReceive]

/-- The frame that the EOF byte closes. -/
theorem Opened.finish_eq {s t : Spi} {txs : List Nat} (h : Opened s t txs) (c : Chip) (b : Nat) :
    Sent s (bufferTransmitReceive c true b t).2
      (t.cur ++ [⟨true, b % 256, t.answer c, t.busy != 0⟩]) (txs ++ [b % 256]) := by
  obtain ⟨f, hf, hc⟩ := h.finish c b
  have hclosed : (bufferTransmitReceive c true b t).2.frames =
      t.frames ++ [t.cur ++ [⟨true, b % 256, t.answer c, t.busy != 0⟩]] := (close_frames c t _).1
  rw [hf.frames, h.frames] at hclosed
  obtain rfl := List.singleton_inj.mp (List.append_cancel_left hclosed)
  exact hf

/-- A read of the driver: polls, then one FAST_READ frame whose answers it returns. -/
theorem readDataBytes_frames {g : Bank} {s : Spi} (c : Chip) (address : Nat) {len : Nat}
    (h : Resting g s) (hl : 0 < len) :
    ∃ polls f, (readDataBytes c address len s).2.frames = s.frames ++ (polls ++ [f]) ∧
      (∀ p ∈ polls, opcode p = some rdsrOpcode) ∧ opcode f = some fastReadOpcode ∧ Idle f ∧
      frameAddress f = address % 2 ^ 24 ∧ f.length = len + 5 ∧
      (readDataBytes c address len s).1 = shiftedOut f := by
  obtain ⟨polls, hp, hpolls⟩ := pollReady_frames c (s.busy + 1) h.cur
  obtain ⟨hw, hb⟩ := waitReady_ready c h
  have ho := (((Opened.start hw.cur).shift c fastReadOpcode).address c address).shift c
    (address &&& 0xFF)
  have hpred : predU32 len = len - 1 := if_neg (by omega)
  obtain ⟨xs, hcur, hlen, hbytes⟩ := readLoop_cur c (predU32 len)
    (bufferTransmitReceive c false (address &&& 0xFF) (sendAddress c address false
      (bufferTransmitReceive c false fastReadOpcode (waitReady c s)).2)).2
  have hf := (ho.readLoop c (predU32 len)).finish_eq c 0xFF
  have hhead := congrArg List.length ho.sent
  simp only [List.length_map, addressBytes, List.length_append, List.length_cons,
    List.length_nil] at hhead
  rw [hcur] at hf
  have hop := hf.leads
  refine ⟨polls, _, ?_, hpolls, hop, idle_of_sent hf hb, frameAddress_eq _ hf.sent, ?_, ?_⟩
  · refine hf.frames.trans ?_
    rw [waitReady, hp, List.append_assoc]
  · simp only [List.length_append, List.length_singleton, hhead, hlen, hpred]
    omega
  · have hdrop : ∀ ys : List Xchg, shiftedOut (_ ++ ys) = ys.map fun x => x.rx % 256 :=
      fun ys => congrArg _ (List.drop_left' hhead)
    rw [List.append_assoc, hdrop, List.map_append, ← hbytes]
    rfl

/-- A read inside the part returns what its array holds. -/
theorem readDataBytes_yields {g : Bank} {s : Spi} (c : Chip) (address len : Nat)
    (h : Resting g s) (hl : 0 < len) (hfit : address + len ≤ g.size) (d : Device) :
    ∃ fs, Yields g s (readDataBytes c address len s).2
      ((readDataBytes c address len s).1 == (d.array.read address len).map BitVec.toNat) d d fs := by
  obtain ⟨polls, f, hf, hpolls, hop, hidle, haddr, hlen, hbytes⟩ :=
    readDataBytes_frames c address h hl
  have hbig := (bank_size g).1
  refine ⟨polls ++ [f], hf, readDataBytes_resting c address len h, fun hg => ⟨?_, ?_⟩⟩
  · obtain ⟨_, hread⟩ := genuine_append.mp hg
    rw [d.after_status hpolls] at hread
    rw [hbytes, (hread.1 hidle).2 hop, haddr, Nat.mod_eq_of_lt (by omega), hlen,
      Nat.add_sub_cancel, beq_iff_eq, Lib.Nor.read, List.map_map]
    refine List.map_congr_left fun i hi => ?_
    rw [List.mem_range] at hi
    rw [Nat.mod_eq_of_lt (by omega)]
    rfl
  · rw [Device.after_append, d.after_status hpolls]
    exact d.take_read (.inr hop)

end SnakeOs.Flash
