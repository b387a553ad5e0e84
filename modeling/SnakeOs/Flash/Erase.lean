import SnakeOs.Flash.Protocol

namespace SnakeOs.Flash

/-- The sectors named by the SECTOR ERASE frames, in the order they were sent. -/
def erasedSectors (fs : List Frame) : List Nat :=
  fs.filterMap fun f =>
    if opcode f = some seOpcode then some (frameAddress f / spiFlashSectorSize) else none

/-- Sector `k` of the chip lies inside `[addr, addr + len)`. -/
def Contained (g : Bank) (addr len k : Nat) : Prop :=
  k < g.info.sectors ∧ addr ≤ k * g.info.sectorSize ∧ (k + 1) * g.info.sectorSize ≤ addr + len

/-- An erase request does what it reports, whatever the chip does: success means
exactly the contained sectors, rejection means none, and nothing outside the
range is ever erased. -/
def EraseMeets (g : Bank) (addr len : Nat) : Prop :=
  ∀ (c : Chip) (busy : Nat),
    ((spiflashErase g c addr len (Spi.init busy)).ret = 0 ∧
        (spiflashErase g c addr len (Spi.init busy)).state = some .done →
      ∀ k, k ∈ erasedSectors (spiflashErase g c addr len (Spi.init busy)).spi.frames ↔
        Contained g addr len k) ∧
    ((spiflashErase g c addr len (Spi.init busy)).ret = einval →
      erasedSectors (spiflashErase g c addr len (Spi.init busy)).spi.frames = []) ∧
    ∀ k ∈ erasedSectors (spiflashErase g c addr len (Spi.init busy)).spi.frames,
      Contained g addr len k

/-- The request is rejected, or it ends before the last sector's end without
wrapping and is not an empty request at the first sector or from the last on. -/
def EraseSafe (g : Bank) (addr len : Nat) : Prop :=
  eraseRejects g addr len = true ∨
    addr + len < g.size ∧ (0 < len ∨ 0 < addr ∧ addr < g.size - g.info.sectorSize)

theorem bank_sectors (g : Bank) :
    g.info.sectorSize = 65536 ∧ (g.info.sectors = 64 ∨ g.info.sectors = 128) := by
  obtain ⟨info, m, d, hp⟩ := g
  unfold spiflashProbe at hp
  simp only at hp ⊢
  repeat' split at hp
  all_goals first | contradiction | (cases hp; simp [spiFlashSectorSize])

theorem erasedSectors_append (fs gs : List Frame) :
    erasedSectors (fs ++ gs) = erasedSectors fs ++ erasedSectors gs :=
  List.filterMap_append

theorem setWriteEnable_erased {g : Bank} {s : Spi} (c : Chip) (h : Resting g s) :
    erasedSectors (setWriteEnable c s).2.frames = erasedSectors s.frames := by
  obtain ⟨polls, w, r, hf, hpolls, hw, hr, _⟩ := setWriteEnable_frames c h
  have hnone : erasedSectors polls = [] := by
    refine List.filterMap_eq_nil_iff.mpr fun p hp => ?_
    rw [hpolls p hp]
    rfl
  have hlast : erasedSectors [w, r] = [] := by
    simp [erasedSectors, hw, hr, wrenOpcode, rdsrOpcode, seOpcode]
  rw [hf, erasedSectors_append, erasedSectors_append, hnone, hlast, List.append_nil,
    List.append_nil]

/-- A sector erase that is not refused names its sector on the bus exactly when
it reports success. -/
theorem sectorErase_erased {g : Bank} {s : Spi} (c : Chip) (i : Nat) (h : Resting g s)
    (hi : i ≤ g.info.sectors) :
    erasedSectors (sectorErase g c (sectorStart g i) s).2.frames = erasedSectors s.frames ++
      if (sectorErase g c (sectorStart g i) s).1 then [i] else [] := by
  obtain ⟨hsz, hn⟩ := bank_sectors g
  have haddr : sectorStart g i = i * 65536 := by
    unfold sectorStart
    rw [hsz]
    omega
  have hr := (setWriteEnable_enabled c h).1
  have he := setWriteEnable_erased c h
  simp only [sectorErase, haddr, hsz]
  rw [if_neg (by omega)]
  cases hok : (setWriteEnable c s).1 with
  | false => simpa [hok] using he
  | true =>
    obtain ⟨f, hf⟩ := ((Opened.start hr.cur).shift c seOpcode).finishAddress c (i * 65536)
    simp only [List.nil_append, List.cons_append] at hf
    have hop : opcode f = some seOpcode := hf.leads
    have ha : frameAddress f = i * 65536 % 2 ^ 24 :=
      frameAddress_eq (b := seOpcode % 256) [] (by simp [hf.sent])
    simp only [↓reduceIte]
    rw [hf.frames, erasedSectors_append, he]
    have hk : frameAddress f / spiFlashSectorSize = i := by
      rw [ha, spiFlashSectorSize]
      omega
    simp [erasedSectors, hop, hk]

theorem sectorErase_refused (g : Bank) (c : Chip) (s : Spi) :
    sectorErase g c (sectorStart g (g.info.sectors + 1)) s = (false, s) := by
  obtain ⟨hsz, hn⟩ := bank_sectors g
  unfold sectorErase sectorStart
  rw [hsz, if_pos (by omega)]

/-- The erasing loop erases consecutive sectors, all of them when it succeeds. -/
theorem eraseLoop_erased {g : Bank} (c : Chip) (n i : Nat) {s : Spi} (h : Resting g s)
    (hi : i ≤ g.info.sectors + 1) : ∃ m ≤ n,
      erasedSectors (eraseLoop g c n i s).2.frames = erasedSectors s.frames ++ List.range' i m ∧
      ((eraseLoop g c n i s).1 = true → m = n) := by
  induction n generalizing i s with
  | zero => exact ⟨0, Nat.le_refl 0, by simp [eraseLoop], fun _ => rfl⟩
  | succ n ih =>
    simp only [eraseLoop]
    rcases Nat.lt_or_ge g.info.sectors i with hbig | hsmall
    · obtain rfl : i = g.info.sectors + 1 := by omega
      rw [sectorErase_refused]
      exact ⟨0, Nat.zero_le _, by simp, by simp⟩
    · have he := sectorErase_erased c i h hsmall
      cases hok : (sectorErase g c (sectorStart g i) s).1 with
      | false =>
        rw [hok] at he
        exact ⟨0, Nat.zero_le _, by simpa using he, by simp⟩
      | true =>
        obtain ⟨m, hm, hf, hall⟩ := ih (i + 1) (sectorErase_resting c (sectorStart g i) h)
          (by omega)
        rw [hok] at he
        refine ⟨m + 1, by omega, ?_, ?_⟩
        · simp only [↓reduceIte]
          rw [hf, he, List.range'_succ]
          simp
        · intro ht
          exact congrArg (· + 1) (hall ht)

/-- A chip that is never busy and accepts every write enable. -/
def obedient : Chip := ⟨fun _ => 0, fun _ => welBit, fun _ => 0⟩

theorem obedient_status (s : Spi) : s.statusByte obedient % 256 &&& welBit ≠ 0 := by
  by_cases hb : s.busy = 0 <;> simp [Spi.statusByte, obedient, welBit, wipBit, hb]

theorem setWriteEnable_obedient {g : Bank} {s : Spi} (h : Resting g s) :
    (setWriteEnable obedient s).1 = true := by
  obtain ⟨hw, hb⟩ := waitReady_ready obedient h
  obtain ⟨w, hwren, _⟩ := (Opened.start hw.cur).finish obedient wrenOpcode
  obtain ⟨r, _, _, hv, _⟩ := readStatus_sent obedient hwren.cur
  have hs := obedient_status (bufferTransmitReceive obedient true wrenOpcode (waitReady obedient s)).2
  rw [← hv] at hs
  simpa [setWriteEnable] using hs

theorem eraseLoop_obedient {g : Bank} (n i : Nat) {s : Spi} (h : Resting g s)
    (hi : i ≤ g.info.sectors + 1) :
    erasedSectors (eraseLoop g obedient n i s).2.frames =
        erasedSectors s.frames ++ List.range' i (min n (g.info.sectors + 1 - i)) ∧
      (eraseLoop g obedient n i s).1 = decide (n ≤ g.info.sectors + 1 - i) := by
  induction n generalizing i s with
  | zero => simp [eraseLoop]
  | succ n ih =>
    simp only [eraseLoop]
    rcases Nat.lt_or_ge g.info.sectors i with hbig | hsmall
    · obtain rfl : i = g.info.sectors + 1 := by omega
      rw [sectorErase_refused]
      simp
    · obtain ⟨hsz, hn⟩ := bank_sectors g
      have hok : (sectorErase g obedient (sectorStart g i) s).1 = true := by
        simp only [sectorErase, sectorStart, hsz]
        rw [if_neg (by omega), setWriteEnable_obedient h]
        rfl
      have he := sectorErase_erased obedient i h hsmall
      obtain ⟨hf, hres⟩ := ih (i + 1) (sectorErase_resting obedient (sectorStart g i) h) (by omega)
      rw [hok] at he
      simp only [hok, ↓reduceIte]
      rw [hf, hres, he]
      have hmin : min (n + 1) (g.info.sectors + 1 - i) =
          min n (g.info.sectors + 1 - (i + 1)) + 1 := by omega
      rw [hmin, List.range'_succ]
      refine ⟨by simp, ?_⟩
      rw [decide_eq_decide]
      omega

/-- The searching loop with a threshold test. -/
theorem firstSector_threshold (stop : Nat → Bool) (t : Nat)
    (n i : Nat) (hs : ∀ k < i + n, stop k = decide (t ≤ k)) :
    firstSector stop n i = if max i t < i + n then some (max i t) else none := by
  induction n generalizing i with
  | zero =>
    rw [if_neg (by omega)]
    rfl
  | succ n ih =>
    unfold firstSector
    rw [hs i (by omega)]
    by_cases ht : t ≤ i
    · rw [if_pos (by simpa using ht), if_pos (by omega)]
      congr 1
      omega
    · rw [if_neg (by simpa using ht), ih (i + 1) (fun k hk => hs k (by omega))]
      have hm : max (i + 1) t = max i t := by omega
      rw [hm]
      congr 1
      simp only [eq_iff_iff]
      omega

/-- `start_sector` in terms of sector numbers: 0 from the last sector on. -/
theorem startSector_eq (g : Bank) (a : Nat) :
    startSector g (a * 65536) = if a + 1 < g.info.sectors then a else 0 := by
  obtain ⟨hsz, hn⟩ := bank_sectors g
  unfold startSector
  rw [firstSector_threshold _ (a + 1) g.info.sectors 0 (by
    intro k hk
    rw [decide_eq_decide, sectorStart, hsz]
    omega)]
  by_cases ha : a + 1 < g.info.sectors
  · rw [if_pos (by omega), if_pos ha]
    simp [predU32]
  · rw [if_neg (by omega), if_neg ha]

/-- `end_sector` in terms of sector numbers, where the range ends at sector `e`. -/
theorem endSector_eq (g : Bank) (a len e : Nat) (he : (a * 65536 + len) % 2 ^ 32 = e * 65536) :
    endSector g (a * 65536) len =
      if max (startSector g (a * 65536)) e < g.info.sectors then
        predU32 (max (startSector g (a * 65536)) e) else 0 := by
  obtain ⟨hsz, hn⟩ := bank_sectors g
  have hstart : startSector g (a * 65536) < g.info.sectors := by
    rw [startSector_eq]
    split <;> omega
  unfold endSector
  rw [firstSector_threshold _ e _ _ (by
    intro k hk
    rw [decide_eq_decide, sectorStart, hsz, he]
    omega)]
  by_cases hm : max (startSector g (a * 65536)) e < g.info.sectors
  · rw [if_pos (by omega), if_pos hm]
  · rw [if_neg (by omega), if_neg hm]

theorem accepted_sectors {g : Bank} {addr len : Nat} (h : eraseRejects g addr len = false) :
    ∃ a l, addr = a * 65536 ∧ len = l * 65536 ∧ (addr + len) % 2 ^ 32 ≤ g.info.sectors * 65536 := by
  obtain ⟨hsz, _⟩ := bank_sectors g
  simp only [eraseRejects, Bank.size, Bank.eraseSize, hsz, Bool.or_eq_false_iff,
    decide_eq_false_iff_not, bne_eq_false_iff_eq] at h
  exact ⟨addr / 65536, len / 65536, by omega, by omega, by omega⟩

theorem erase_accepted {g : Bank} {addr len : Nat} (c : Chip) (s : Spi)
    (h : eraseRejects g addr len = false) {n : Nat}
    (hn : endSector g addr len + 1 - startSector g addr = n) :
    (spiflashErase g c addr len s).spi = (eraseLoop g c n (startSector g addr) s).2 ∧
      ((spiflashErase g c addr len s).ret = 0 ↔
        (eraseLoop g c n (startSector g addr) s).1 = true) ∧
      ((spiflashErase g c addr len s).ret = 0 →
        (spiflashErase g c addr len s).state = some .done) ∧
      (spiflashErase g c addr len s).ret ≠ einval := by
  subst n
  cases hr : (eraseLoop g c (endSector g addr len + 1 - startSector g addr)
      (startSector g addr) s).1 <;>
    simp [spiflashErase, h, hr, einval, eio]

theorem safe_meets {g : Bank} {addr len : Nat} (h : EraseSafe g addr len) :
    EraseMeets g addr len := by
  intro c busy
  cases hr : eraseRejects g addr len with
  | true => simp [spiflashErase, hr, Spi.init, erasedSectors, einval]
  | false =>
    obtain ⟨hsz, hn⟩ := bank_sectors g
    obtain ⟨a, l, rfl, rfl, hend⟩ := accepted_sectors hr
    rcases h with h | ⟨hlt, hcase⟩
    · rw [hr] at h
      contradiction
    · rw [Bank.size, hsz] at hlt hcase
      have hfirst : startSector g (a * 65536) = a := by
        rw [startSector_eq, if_pos (by omega)]
      have hlast : endSector g (a * 65536) (l * 65536) + 1 - startSector g (a * 65536) = l := by
        rw [endSector_eq g a _ (a + l) (by omega), hfirst, if_pos (by omega), predU32,
          if_neg (by omega)]
        omega
      obtain ⟨hspi, hret, _, hne⟩ := erase_accepted c (Spi.init busy) hr hlast
      obtain ⟨m, hm, herased, hall⟩ := eraseLoop_erased c l (startSector g (a * 65536))
        (init_resting g busy) (by omega)
      rw [← hspi, hfirst] at herased
      have hmem : ∀ k, k ∈ erasedSectors
          (spiflashErase g c (a * 65536) (l * 65536) (Spi.init busy)).spi.frames ↔
          a ≤ k ∧ k < a + m := by
        intro k
        rw [herased]
        simp [Spi.init, erasedSectors, List.mem_range'_1]
      refine ⟨?_, fun he => absurd he hne, ?_⟩
      · rintro ⟨h0, _⟩ k
        rw [hmem, hall (hret.mp h0), Contained, hsz]
        omega
      · intro k hk
        have := (hmem k).mp hk
        rw [Contained, hsz]
        omega

/-- What an obedient chip is asked to erase once a request is accepted. -/
theorem obedient_erases {g : Bank} {addr len : Nat} (h : eraseRejects g addr len = false)
    {n : Nat} (hn : endSector g addr len + 1 - startSector g addr = n)
    (hs : startSector g addr ≤ g.info.sectors) (k : Nat) :
    k ∈ erasedSectors (spiflashErase g obedient addr len (Spi.init 0)).spi.frames ↔
      startSector g addr ≤ k ∧ k < startSector g addr + n ∧ k ≤ g.info.sectors := by
  obtain ⟨herased, _⟩ := eraseLoop_obedient n (startSector g addr) (init_resting g 0) (by omega)
  rw [(erase_accepted obedient (Spi.init 0) h hn).1, herased]
  simp only [Spi.init, erasedSectors, List.filterMap_nil, List.nil_append, List.mem_range'_1]
  omega

theorem obedient_done {g : Bank} {addr len : Nat} (h : eraseRejects g addr len = false)
    (hs : startSector g addr ≤ g.info.sectors)
    (hn : endSector g addr len + 1 - startSector g addr ≤ 1) :
    (spiflashErase g obedient addr len (Spi.init 0)).ret = 0 ∧
      (spiflashErase g obedient addr len (Spi.init 0)).state = some .done := by
  obtain ⟨_, hret, hdone, _⟩ := erase_accepted obedient (Spi.init 0) h rfl
  obtain ⟨_, hok⟩ := eraseLoop_obedient (endSector g addr len + 1 - startSector g addr)
    (startSector g addr) (init_resting g 0) (by omega)
  have h0 := hret.mpr (by rw [hok, decide_eq_true_eq]; omega)
  exact ⟨h0, hdone h0⟩

/-- An unsafe request in sector numbers: the end wraps, is the end of the chip,
or the request is empty at the first or from the last sector on. -/
theorem unsafe_sectors {g : Bank} {a l : Nat} (ha : a * 65536 < 2 ^ 32) (hl : l * 65536 < 2 ^ 32)
    (hend : (a * 65536 + l * 65536) % 2 ^ 32 ≤ g.info.sectors * 65536)
    (h : ¬ EraseSafe g (a * 65536) (l * 65536)) :
    ∃ e ≤ g.info.sectors, (a * 65536 + l * 65536) % 2 ^ 32 = e * 65536 ∧
      ((a + l = e + 65536 ∧ e < a ∧ 0 < l) ∨ (a + l = e ∧ e = g.info.sectors) ∨
        (e = a ∧ l = 0 ∧ (a = 0 ∨ g.info.sectors ≤ a + 1))) := by
  obtain ⟨hsz, hn⟩ := bank_sectors g
  unfold EraseSafe at h
  rw [Bank.size, hsz, not_or] at h
  refine ⟨(a + l) % 65536, by omega, by omega, ?_⟩
  omega

/-- A request outside the safe ones makes an obedient chip erase sector 0 against
the request, or reports success with a contained sector left alone. -/
theorem meets_safe {g : Bank} {addr len : Nat} (ha : addr < 2 ^ 32) (hl : len < 2 ^ 32)
    (h : EraseMeets g addr len) : EraseSafe g addr len := by
  obtain ⟨hsz, hn⟩ := bank_sectors g
  by_contra hunsafe
  have hr : eraseRejects g addr len = false := by
    rw [← Bool.not_eq_true]
    exact fun hr => hunsafe (.inl hr)
  obtain ⟨a, l, rfl, rfl, hend⟩ := accepted_sectors hr
  obtain ⟨e, heN, he, hcase⟩ := unsafe_sectors ha hl hend hunsafe
  clear hend ha hl
  have hstart := startSector_eq g a
  have hlast := endSector_eq g a (l * 65536) e he
  clear he
  have hs : startSector g (a * 65536) ≤ g.info.sectors := by
    rw [hstart]
    split <;> omega
  have hmem := obedient_erases hr rfl hs
  obtain ⟨hexact, -, hinside⟩ := h obedient 0
  simp only [Contained, hsz] at hexact hinside
  -- sector 0 is erased although the request lies behind it or is empty
  have hzero : ¬(startSector g (a * 65536) = 0 ∧ (0 < a ∨ l = 0)) := by
    rintro ⟨h0, hnot⟩
    obtain ⟨_, hlow, hhigh⟩ := hinside 0 ((hmem 0).mpr ⟨by omega, by omega, by omega⟩)
    omega
  have hlt : a + 1 < g.info.sectors := by
    by_contra hge
    exact hzero ⟨by rw [hstart, if_neg hge], by omega⟩
  have hfirst : startSector g (a * 65536) = a := by rw [hstart, if_pos hlt]
  rw [hfirst] at hlast hmem
  -- the range reaches the end of the chip or wraps: at most sector 0 is erased
  have hcount : endSector g (a * 65536) (l * 65536) + 1 - a = if a = 0 then 1 else 0 := by
    rw [hlast, predU32]
    split_ifs <;> omega
  rw [hcount] at hmem
  have hk := (hexact (obedient_done hr hs (by rw [hfirst, hcount]; split <;> omega))
    (if a = 0 then 1 else a)).mpr (by split <;> omega)
  rw [hmem] at hk
  split at hk <;> omega

/-- The erase does what it reports exactly for the safe requests. -/
theorem erase_meets_iff_safe (g : Bank) (addr len : UInt32) :
    EraseMeets g addr.toNat len.toNat ↔ EraseSafe g addr.toNat len.toNat :=
  ⟨meets_safe addr.toNat_lt len.toNat_lt, safe_meets⟩

/-- A 4 MB part with the range of its last sector: the boot sector is erased. -/
theorem erase_last_sector_fails :
    ¬ EraseMeets ⟨⟨64, 0x10000, 16384, 256⟩, 0x20, 0x2016, rfl⟩ 0x3F0000 0x10000 := by
  intro h
  have := meets_safe (by decide) (by decide) h
  revert this
  unfold EraseSafe
  decide

end SnakeOs.Flash
