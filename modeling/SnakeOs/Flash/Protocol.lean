import SnakeOs.Flash.Frames
import SnakeOs.Lib.Trace

namespace SnakeOs.Flash

/-- The frames so far end with a WREN frame followed by status reads only, one of
which showed WEL. -/
def Enabled (fs : List Frame) : Prop :=
  ∃ before w reads, fs = before ++ w :: reads ∧ opcode w = some wrenOpcode ∧
    (∀ r ∈ reads, opcode r = some rdsrOpcode) ∧ ∃ r ∈ reads, welRead r

/-- A PAGE PROGRAM frame carries 1 to `page_size` bytes, all of one page. -/
def InPage (g : Bank) (f : Frame) : Prop :=
  5 ≤ f.length ∧ f.length - 4 ≤ g.info.pageSize ∧
    frameAddress f / g.info.pageSize = (frameAddress f + (f.length - 4) - 1) / g.info.pageSize

/-- The command protocol of the chip over the frames it received. -/
structure Protocol (g : Bank) (fs : List Frame) : Prop where
  terminated : ∀ f ∈ fs, Terminated f
  idle : ∀ f ∈ fs, opcode f ≠ some rdsrOpcode → ∀ x ∈ f.head?, x.wip = false
  enabled : ∀ before f after, fs = before ++ f :: after →
    opcode f = some ppOpcode ∨ opcode f = some seOpcode → Enabled before
  pages : ∀ f ∈ fs, opcode f = some ppOpcode → InPage g f

theorem Protocol.nil (g : Bank) : Protocol g [] :=
  ⟨by simp, by simp, Lib.Justified.nil, by simp⟩

theorem Protocol.snoc {g : Bank} {fs : List Frame} {f : Frame} (h : Protocol g fs)
    (ht : Terminated f) (hi : opcode f ≠ some rdsrOpcode → ∀ x ∈ f, x.wip = false)
    (he : opcode f = some ppOpcode ∨ opcode f = some seOpcode → Enabled fs)
    (hp : opcode f = some ppOpcode → InPage g f) : Protocol g (fs ++ [f]) := by
  refine ⟨?_, ?_, ?_, ?_⟩
  · intro q hq
    rcases List.mem_append.mp hq with hq | hq
    · exact h.terminated q hq
    · rwa [List.mem_singleton.mp hq]
  · intro q hq
    rcases List.mem_append.mp hq with hq | hq
    · exact h.idle q hq
    · rw [List.mem_singleton.mp hq]
      exact fun hr x hx => hi hr x (List.mem_of_mem_head? hx)
  · apply Lib.Justified.snoc (P := fun before q =>
      opcode q = some ppOpcode ∨ opcode q = some seOpcode → Enabled before)
    · exact h.enabled
    · exact he
  · intro q hq
    rcases List.mem_append.mp hq with hq | hq
    · exact h.pages q hq
    · rwa [List.mem_singleton.mp hq]

/-- Between two commands: no frame open and the protocol kept so far. -/
structure Resting (g : Bank) (s : Spi) : Prop where
  cur : s.cur = []
  protocol : Protocol g s.frames

/-- A frame other than a program or an erase keeps the protocol when it is a
status read or the chip is ready. -/
theorem Resting.sent {g : Bank} {s u : Spi} {f : Frame} {b : Nat} {txs : List Nat}
    (h : Resting g s) (hs : Sent s u f (b :: txs)) (hp : b ≠ ppOpcode) (he : b ≠ seOpcode)
    (hi : b = rdsrOpcode ∨ s.busy = 0) : Resting g u := by
  have hop : opcode f = some b := hs.leads
  refine ⟨hs.cur, ?_⟩
  rw [hs.frames]
  refine h.protocol.snoc hs.terminated ?_ ?_ ?_
  · intro hr x hx
    rcases hi with rfl | hi
    · exact absurd hop hr
    · simp [hs.wip x hx, hi]
  · rw [hop]
    rintro (hb | hb)
    · exact absurd (Option.some.inj hb) hp
    · exact absurd (Option.some.inj hb) he
  · rw [hop]
    exact fun hb => absurd (Option.some.inj hb) hp

theorem readStatus_resting {g : Bank} {s : Spi} (c : Chip) (h : Resting g s) :
    Resting g (readStatusRegister c s).2 := by
  obtain ⟨f, hf, _⟩ := readStatus_sent c h.cur
  exact h.sent hf (by decide) (by decide) (.inl rfl)

/-- The poll loop leaves the chip ready once it may poll more often than the chip
answers WIP. -/
theorem pollReady_ready {g : Bank} (c : Chip) (n : Nat) {s : Spi} (h : Resting g s)
    (hn : s.busy < n) : Resting g (pollReady c n s) ∧ (pollReady c n s).busy = 0 := by
  induction n generalizing s with
  | zero => omega
  | succ n ih =>
    obtain ⟨f, hf, _, hv, hb⟩ := readStatus_sent c h.cur
    have hr := readStatus_resting c h
    simp only [pollReady, isFlashReady, hv, statusByte_ready]
    by_cases h0 : s.busy = 0
    · simp only [h0, beq_self_eq_true, ↓reduceIte]
      exact ⟨hr, by rw [hb, h0]⟩
    · simp only [h0, beq_iff_eq, ↓reduceIte]
      exact ih hr (by omega)

theorem waitReady_ready {g : Bank} {s : Spi} (c : Chip) (h : Resting g s) :
    Resting g (waitReady c s) ∧ (waitReady c s).busy = 0 :=
  pollReady_ready c _ h (Nat.lt_succ_self _)

/-- The poll loop sends status reads only. -/
theorem pollReady_frames (c : Chip) (n : Nat) {s : Spi} (h : s.cur = []) :
    ∃ polls, (pollReady c n s).frames = s.frames ++ polls ∧
      ∀ p ∈ polls, opcode p = some rdsrOpcode := by
  induction n generalizing s with
  | zero => exact ⟨[], by simp [pollReady], by simp⟩
  | succ n ih =>
    obtain ⟨f, hf, _⟩ := readStatus_sent c h
    have hop : opcode f = some rdsrOpcode := hf.leads
    have hs : (isFlashReady c s).2.frames = s.frames ++ [f] := hf.frames
    cases hr : (isFlashReady c s).1 with
    | true => exact ⟨[f], by simpa [pollReady, hr] using hs, by simpa using hop⟩
    | false =>
      obtain ⟨polls, hp, hpolls⟩ := ih (s := (isFlashReady c s).2) hf.cur
      exact ⟨f :: polls, by simp [pollReady, hr, hp, hs], by simpa [hop] using hpolls⟩

/-- A write enable sends polls, the WREN frame and the status read that decides it. -/
theorem setWriteEnable_frames {g : Bank} {s : Spi} (c : Chip) (h : Resting g s) :
    ∃ polls w r, (setWriteEnable c s).2.frames = s.frames ++ (polls ++ [w, r]) ∧
      (∀ p ∈ polls, opcode p = some rdsrOpcode) ∧ opcode w = some wrenOpcode ∧
      opcode r = some rdsrOpcode ∧ ((setWriteEnable c s).1 = true ↔ welRead r) := by
  obtain ⟨polls, hp, hpolls⟩ := pollReady_frames c (s.busy + 1) h.cur
  obtain ⟨hw, hb⟩ := waitReady_ready c h
  obtain ⟨w, hwren, hc⟩ := (Opened.start hw.cur).finish c wrenOpcode
  obtain ⟨r, hrdsr, hstatus, _⟩ := readStatus_sent c hwren.cur
  refine ⟨polls, w, r, ?_, hpolls, hwren.leads, hrdsr.leads, ?_⟩
  · simp only [setWriteEnable]
    rw [hrdsr.frames, hwren.frames, waitReady, hp]
    simp
  · simp [setWriteEnable, welRead, hstatus]

/-- After a successful write enable the chip is ready and armed. -/
theorem setWriteEnable_enabled {g : Bank} {s : Spi} (c : Chip) (h : Resting g s) :
    Resting g (setWriteEnable c s).2 ∧ (setWriteEnable c s).2.busy = 0 ∧
      ((setWriteEnable c s).1 = true → Enabled (setWriteEnable c s).2.frames) := by
  obtain ⟨hw, hb⟩ := waitReady_ready c h
  obtain ⟨w, hwren, hc⟩ := (Opened.start hw.cur).finish c wrenOpcode
  have hop : opcode w = some wrenOpcode := hwren.leads
  have hr := hw.sent hwren (by decide) (by decide) (.inr hb)
  have hb' : (bufferTransmitReceive c true wrenOpcode (waitReady c s)).2.busy = 0 := by
    rw [hc, close_busy _ _ _ (by rw [hop]; decide) (by rw [hop]; decide), hop]
    exact hb
  obtain ⟨r, hrdsr, _, _, hbusy⟩ := readStatus_sent c hr.cur
  refine ⟨readStatus_resting c hr, ?_, ?_⟩
  · simp only [setWriteEnable]
    rw [hbusy, hb']
  · intro hok
    obtain ⟨polls, w, r, hf, _, hw, hr, hwel⟩ := setWriteEnable_frames c h
    refine ⟨s.frames ++ polls, w, [r], by rw [hf, List.append_assoc], hw, ?_, r, by simp, ?_⟩
    · simpa using hr
    · exact hwel.mp hok

theorem and_255 (n : Nat) : (n &&& 0xFF) % 256 = n % 256 := by
  have hmask : n &&& 0xFF = n % 256 := Nat.and_two_pow_sub_one_eq_mod n 8
  rw [hmask, Nat.mod_mod]

/-- The three address bytes as the chip receives them. -/
def addressBytes (address : Nat) : List Nat :=
  [address / 65536 % 256, address / 256 % 256, address % 256]

theorem Opened.address {s t : Spi} {txs : List Nat} (h : Opened s t txs) (c : Chip)
    (address : Nat) : Opened s (sendAddress c address false t) (txs ++ addressBytes address) := by
  have := ((h.shift c (address >>> 16 &&& 0xFF)).shift c (address >>> 8 &&& 0xFF)).shift c
    (address &&& 0xFF)
  simpa [sendAddress, and_255, Nat.shiftRight_eq_div_pow, addressBytes] using this

theorem Opened.finishAddress {s t : Spi} {txs : List Nat} (h : Opened s t txs) (c : Chip)
    (address : Nat) :
    ∃ f, Sent s (sendAddress c address true t) f (txs ++ addressBytes address) := by
  obtain ⟨f, hf, _⟩ := ((h.shift c (address >>> 16 &&& 0xFF)).shift c
    (address >>> 8 &&& 0xFF)).finish c (address &&& 0xFF)
  exact ⟨f, by simpa [sendAddress, and_255, Nat.shiftRight_eq_div_pow, addressBytes] using hf⟩

theorem Opened.readLoop {s t : Spi} {txs : List Nat} (c : Chip) (n : Nat) (h : Opened s t txs) :
    Opened s (readLoop c n t).2 (txs ++ List.replicate n 0xFF) := by
  induction n generalizing t txs with
  | zero => simpa [SnakeOs.Flash.readLoop] using h
  | succ n ih =>
    have := ih (h.shift c 0xFF)
    simpa [SnakeOs.Flash.readLoop, List.replicate_succ] using this

theorem readDataBytes_resting {g : Bank} {s : Spi} (c : Chip) (address len : Nat)
    (h : Resting g s) : Resting g (readDataBytes c address len s).2 := by
  obtain ⟨hw, hb⟩ := waitReady_ready c h
  have ho := (((Opened.start hw.cur).shift c fastReadOpcode).address c address).shift c
    (address &&& 0xFF)
  obtain ⟨f, hf, _⟩ := (ho.readLoop c (predU32 len)).finish c 0xFF
  simp only [List.nil_append, List.cons_append] at hf
  exact hw.sent hf (by decide) (by decide) (.inr hb)

theorem sectorErase_resting {g : Bank} {s : Spi} (c : Chip) (sectorAddr : Nat)
    (h : Resting g s) : Resting g (sectorErase g c sectorAddr s).2 := by
  unfold sectorErase
  split
  · exact h
  · obtain ⟨hr, hb, he⟩ := setWriteEnable_enabled c h
    simp only
    split
    · rename_i hok
      obtain ⟨f, hf⟩ := ((Opened.start hr.cur).shift c seOpcode).finishAddress c sectorAddr
      simp only [List.nil_append, List.cons_append] at hf
      have hop : opcode f = some seOpcode := hf.leads
      refine ⟨hf.cur, ?_⟩
      rw [hf.frames]
      refine hr.protocol.snoc hf.terminated ?_ (fun _ => he hok) ?_
      · intro _ x hx
        simp [hf.wip x hx, hb]
      · rw [hop]
        exact fun hc => absurd hc (by decide)
    · exact hr

theorem Opened.programLoop {s t : Spi} {txs : List Nat} (c : Chip) (buf : Nat → Nat) (n ii : Nat)
    (h : Opened s t txs) : Opened s (programLoop c buf n ii t)
      (txs ++ (List.range' ii n).map fun i => buf i % 256) := by
  induction n generalizing t txs ii with
  | zero => simpa [SnakeOs.Flash.programLoop] using h
  | succ n ih =>
    have := ih (ii + 1) (h.shift c (buf ii))
    simpa [SnakeOs.Flash.programLoop, List.range'_succ] using this

theorem bank_pageSize (g : Bank) : g.info.pageSize = 256 := by
  obtain ⟨info, m, d, hp⟩ := g
  unfold spiflashProbe at hp
  simp only at hp ⊢
  repeat' split at hp
  all_goals first | contradiction | (cases hp; rfl)

/-- The page test of the source is about 32 bit addresses; a page is the same for
the 24 bits that reach the chip. -/
theorem page_fits {address len : Nat} (hl : len ≠ 0) (_ : len ≤ 256) (_ : address < 2 ^ 32)
    (hp : address / 256 = (address + predU32 len) % 2 ^ 32 / 256) : address % 256 + len ≤ 256 := by
  rw [predU32, if_neg hl] at hp
  omega

theorem frameAddress_eq {f : Frame} {b address : Nat} (data : List Nat)
    (h : f.map Xchg.tx = b :: addressBytes address ++ data) :
    frameAddress f = address % 2 ^ 24 := by
  simp only [frameAddress, h, addressBytes, List.cons_append, List.nil_append]
  omega

theorem pageProgram_resting {g : Bank} {s : Spi} (c : Chip) (address : Nat) (buf : Nat → Nat)
    (len : Nat) (h : Resting g s) (ha : address < 2 ^ 32) (hl : len ≠ 0) :
    Resting g (pageProgramDataBytes g c address buf len s).2 := by
  unfold pageProgramDataBytes
  rw [bank_pageSize g]
  split
  · exact h
  split
  · exact h
  split
  · exact h
  rename_i hs _ hp
  obtain ⟨hr, hb, he⟩ := setWriteEnable_enabled c h
  simp only [Bool.not_eq_eq_eq_not, Bool.not_true]
  split
  · exact hr
  · rename_i hok
    have ho := ((Opened.start hr.cur).shift c ppOpcode).address c address
    obtain ⟨f, hf, _⟩ := (ho.programLoop c buf (predU32 len) 0).finish c (buf (predU32 len))
    simp only [List.nil_append, List.cons_append, List.append_assoc] at hf
    have hop : opcode f = some ppOpcode := hf.leads
    refine ⟨hf.cur, ?_⟩
    rw [hf.frames]
    refine hr.protocol.snoc hf.terminated ?_ (fun _ => he (by simpa using hok)) ?_
    · intro _ x hx
      simp [hf.wip x hx, hb]
    · intro _
      have hlen : f.length = len + 4 := by
        have := congrArg List.length hf.sent
        have hpred : predU32 len = len - 1 := if_neg hl
        simp only [List.length_map, addressBytes, List.length_append, List.length_cons,
          List.length_nil, List.length_range', hpred] at this
        omega
      have hfit := page_fits hl (by omega) ha (by simpa using hp)
      have haddr := frameAddress_eq (f := f) (b := ppOpcode % 256) _ (by rw [hf.sent]; rfl)
      refine ⟨by omega, by rw [bank_pageSize]; omega, ?_⟩
      rw [bank_pageSize, haddr, hlen]
      omega

theorem eraseLoop_resting {g : Bank} (c : Chip) (n i : Nat) {s : Spi} (h : Resting g s) :
    Resting g (eraseLoop g c n i s).2 := by
  induction n generalizing i s with
  | zero => exact h
  | succ n ih =>
    have hs := sectorErase_resting c (sectorStart g i) h
    simp only [eraseLoop]
    split
    · exact ih (i + 1) hs
    · exact hs

theorem toU32_lt (n : Int) : toU32 n < 2 ^ 32 := by
  unfold toU32
  omega

theorem writeLoop_resting {g : Bank} (c : Chip) (dst : Int) (buf : Nat → Nat) (n : Nat)
    (left total : Nat) {s : Spi} (h : Resting g s) :
    Resting g (writeLoop g c dst buf n left total s).spi := by
  induction n generalizing left total s with
  | zero => exact h
  | succ n ih =>
    unfold writeLoop
    split
    · exact h
    · rename_i hleft
      have hs := pageProgram_resting c (toU32 (dst + total)) (fun ii => buf (total + ii))
        (progSize g left) h (toU32_lt _) (by unfold progSize; rw [bank_pageSize]; split <;> omega)
      simp only
      split
      · exact ih _ _ hs
      · exact hs

theorem perform_resting {g : Bank} (c : Chip) {s : Spi} (h : Resting g s) (call : Call) :
    Resting g (call.perform g c s) := by
  cases call with
  | erase addr len =>
    simp only [Call.perform, spiflashErase]
    split
    · exact h
    · have := eraseLoop_resting c (endSector g addr.toNat len.toNat + 1 - startSector g addr.toNat)
        (startSector g addr.toNat) h
      split <;> exact this
  | read start len =>
    simp only [Call.perform, spiflashRead]
    split
    · exact h
    · split
      · exact h
      · exact readDataBytes_resting c _ _ h
  | write dst len buf =>
    simp only [Call.perform, spiflashWrite]
    split
    · exact h
    · split
      · exact h
      · exact writeLoop_resting c _ _ _ _ _ h

theorem performAll_resting {g : Bank} (c : Chip) {s : Spi} (h : Resting g s) (calls : List Call) :
    Resting g (performAll g c s calls) := by
  unfold performAll
  induction calls generalizing s with
  | nil => exact h
  | cons call calls ih => exact ih (perform_resting c h call)

theorem init_resting (g : Bank) (busy : Nat) : Resting g (Spi.init busy) := ⟨rfl, Protocol.nil g⟩

/-- Whatever calls are made in whatever order, and however long the chip stays
busy or refuses write enables, the frames it sees follow its protocol and no
frame is left open. -/
theorem calls_keep_protocol (g : Bank) (c : Chip) (busy : Nat) (calls : List Call) :
    (performAll g c (Spi.init busy) calls).cur = [] ∧
      Protocol g (performAll g c (Spi.init busy) calls).frames := by
  have h := performAll_resting c (init_resting g busy) calls
  exact ⟨h.cur, h.protocol⟩

end SnakeOs.Flash
