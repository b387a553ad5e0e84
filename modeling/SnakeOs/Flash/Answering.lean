import SnakeOs.Flash.Device

namespace SnakeOs.Flash

/-- The two chips have made the same choices up to `s`. -/
structure Spi.Agree (s : Spi) (c c' : Chip) : Prop where
  waits : c'.waits = c.waits
  status : ∀ k < s.polls, c'.status k = c.status k
  data : ∀ k < s.moved, c'.data k = c.data k

theorem Spi.Agree.refl (s : Spi) (c : Chip) : s.Agree c c := ⟨rfl, fun _ _ => rfl, fun _ _ => rfl⟩

theorem Spi.Agree.trans {s t : Spi} {c c' c'' : Chip} (h : s.Agree c c') (h' : t.Agree c' c'')
    (hpolls : s.polls ≤ t.polls) (hmoved : s.moved ≤ t.moved) : s.Agree c c'' :=
  ⟨h'.waits.trans h.waits,
    fun k hk => (h'.status k (hk.trans_le hpolls)).trans (h.status k hk),
    fun k hk => (h'.data k (hk.trans_le hmoved)).trans (h.data k hk)⟩

/-- Whatever was chosen up to `s`, the chip can go on in such a way that `F` ends in `Q`;
what it chooses later changes nothing in that. -/
def Leads {β : Type} (s : Spi) (spi : β → Spi) (F : Chip → β) (Q : Spi → Prop) : Prop :=
  ∀ c, ∃ c', s.Agree c c' ∧ Q (spi (F c')) ∧ s.polls ≤ (spi (F c')).polls ∧
    s.moved ≤ (spi (F c')).moved ∧ ∀ c'', (spi (F c')).Agree c' c'' → F c'' = F c'

theorem Leads.pure {β : Type} (spi : β → Spi) {Q : Spi → Prop} (b : β) (h : Q (spi b)) :
    Leads (spi b) spi (fun _ => b) Q :=
  fun c => ⟨c, .refl _ c, h, Nat.le_refl _, Nat.le_refl _, fun _ _ => rfl⟩

theorem Leads.bind {β γ : Type} {s : Spi} {spi : β → Spi} {spi' : γ → Spi} {F : Chip → β}
    {R Q : Spi → Prop} (h : Leads s spi F R) (G : β → Chip → γ)
    (hG : ∀ b, R (spi b) → Leads (spi b) spi' (G b) Q) :
    Leads s spi' (fun c => G (F c) c) Q := by
  intro c
  obtain ⟨c₁, hc₁, hR, hp₁, hm₁, hF⟩ := h c
  obtain ⟨c₂, hc₂, hQ, hp₂, hm₂, hG⟩ := hG _ hR c₁
  have hF₂ : F c₂ = F c₁ := hF c₂ hc₂
  refine ⟨c₂, hc₁.trans hc₂ hp₁ hm₁, ?_, ?_, ?_, fun c₃ hc₃ => ?_⟩
  · simp only [hF₂, hQ]
  · simp only [hF₂]
    exact hp₁.trans hp₂
  · simp only [hF₂]
    exact hm₁.trans hm₂
  · simp only [hF₂] at hc₃ ⊢
    rw [hF c₃ (hc₂.trans hc₃ hp₂ hm₂), hG c₃ hc₃]

/-- Another way to look at the result of the same steps. -/
theorem Leads.map {β γ : Type} {s : Spi} {spi : β → Spi} {spi' : γ → Spi} {F : Chip → β}
    {Q : Spi → Prop} (h : Leads s spi F Q) (f : β → γ) (hf : ∀ b, spi' (f b) = spi b) :
    Leads s spi' (fun c => f (F c)) Q := by
  intro c
  obtain ⟨c', hc, hQ, hp, hm, hF⟩ := h c
  refine ⟨c', hc, ?_⟩
  simp only [hf]
  exact ⟨hQ, hp, hm, fun c'' h'' => by rw [hF c'' h'']⟩

/-- No frame is open, and the part `d` has answered all of them. -/
structure Between (g : Bank) (d : Device) (s : Spi) : Prop where
  cur : s.cur = []
  genuine : Genuine g d s.frames

/-- What the part shifts out behind the command, the address and the dummy byte of `f`. -/
def Device.shifts (g : Bank) (d : Device) (f : Frame) : List Nat :=
  (List.range (f.length - 5)).map fun i => (d.array ((frameAddress f + i) % g.size)).toNat

/-- A frame other than a status read is open, and the part answers it. -/
structure Within (g : Bank) (d : Device) (s : Spi) : Prop where
  opened : s.cur ≠ []
  quiet : opcode s.cur ≠ some rdsrOpcode
  genuine : Genuine g d s.frames
  shifted : opcode s.cur = some fastReadOpcode →
    shiftedOut s.cur = (d.after s.frames).shifts g s.cur

theorem opcode_snoc {f : Frame} (h : f ≠ []) (x : Xchg) : opcode (f ++ [x]) = opcode f := by
  cases f with
  | nil => exact absurd rfl h
  | cons y f => rfl

theorem frameAddress_snoc {f : Frame} (h : 4 ≤ f.length) (x : Xchg) :
    frameAddress (f ++ [x]) = frameAddress f := by
  match f, h with
  | _ :: _ :: _ :: _ :: _, _ => rfl

/-- One more byte of the frame. -/
theorem shiftedOut_snoc {g : Bank} {d : Device} {f : Frame} {x : Xchg}
    (h : shiftedOut f = d.shifts g f)
    (hx : x.rx % 256 = (d.array ((frameAddress f + (f.length - 5)) % g.size)).toNat) :
    shiftedOut (f ++ [x]) = d.shifts g (f ++ [x]) := by
  by_cases hlen : f.length < 5
  · have hdrop : (f ++ [x]).drop 5 = [] := List.drop_eq_nil_of_le (by simp; omega)
    have hzero : (f ++ [x]).length - 5 = 0 := by simp; omega
    rw [shiftedOut, hdrop, Device.shifts, hzero]
    rfl
  · have hdrop : (f ++ [x]).drop 5 = f.drop 5 ++ [x] :=
      List.drop_append_of_le_length (Nat.le_of_not_lt hlen)
    have hone : (f ++ [x]).length - 5 = f.length - 5 + 1 := by simp; omega
    unfold shiftedOut Device.shifts at h ⊢
    rw [hdrop, List.map_append, h, hone, List.range_succ, List.map_append,
      frameAddress_snoc (by omega), List.map_singleton, List.map_singleton, hx]

/-- The byte that a genuine part answers next. -/
def Spi.ideal (g : Bank) (d : Device) (s : Spi) : Nat :=
  ((d.after s.frames).array ((frameAddress s.cur + (s.cur.length - 5)) % g.size)).toNat

/-- A byte of a frame that is no status read is answered from the chip's data. -/
theorem answer_data {s : Spi} (c : Chip) (h : opcode s.cur ≠ some rdsrOpcode) :
    s.answer c = c.data s.moved % 256 := if_neg h

theorem close_moved (c : Chip) (s : Spi) (f : Frame) :
    (s.close c f).moved = s.moved + 1 ∧ s.polls ≤ (s.close c f).polls := by
  unfold Spi.close
  split
  · exact ⟨rfl, Nat.le_succ _⟩
  · split <;> exact ⟨rfl, Nat.le_refl _⟩

theorem close_congr {c c' : Chip} (h : c'.waits = c.waits) (s : Spi) (f : Frame) :
    s.close c' f = s.close c f := by
  unfold Spi.close
  rw [h]

/-- The chip's next byte chosen at will: the byte sent in a frame that is no status read. -/
theorem shift_leads {s : Spi} (eof : Bool) (tx rx : Nat) {Q : Spi → Prop} (hrx : rx < 256)
    (hq : opcode s.cur ≠ some rdsrOpcode)
    (h : ∀ c, s.answer c = rx → Q (bufferTransmitReceive c eof tx s).2) :
    Leads s Prod.snd (fun c => bufferTransmitReceive c eof tx s) Q := by
  intro c
  refine ⟨{ c with data := Function.update c.data s.moved rx }, ⟨rfl, fun _ _ => rfl, ?_⟩, ?_,
    ?_, ?_, fun c'' hc => ?_⟩
  · exact fun k hk => Function.update_of_ne (Nat.ne_of_lt hk) _ _
  · refine h _ ((answer_data _ hq).trans ?_)
    simp only [Function.update_self, Nat.mod_eq_of_lt hrx]
  all_goals cases eof
  · exact Nat.le_refl _
  · exact (close_moved _ _ _).2
  · exact Nat.le_succ _
  · exact (close_moved _ _ _).1.symm ▸ Nat.le_succ _
  · have hdata := hc.data s.moved (Nat.lt_succ_self _)
    simp only [bufferTransmitReceive, answer_data _ hq, hdata, Bool.false_eq_true, ↓reduceIte]
  · have hdata := hc.data s.moved ((close_moved _ _ _).1.symm ▸ Nat.lt_succ_self _)
    simp only [bufferTransmitReceive, answer_data _ hq, hdata, close_congr hc.waits]

theorem genuine_snoc {g : Bank} {d : Device} {fs : List Frame} {f : Frame} (h : Genuine g d fs)
    (hf : (d.after fs).Answers g f) : Genuine g d (fs ++ [f]) :=
  genuine_append.mpr ⟨h, hf, trivial⟩

theorem ideal_lt (g : Bank) (d : Device) (s : Spi) : s.ideal g d < 256 := BitVec.isLt _

/-- The first byte of a command, with more to come. -/
theorem Between.first {g : Bank} {d : Device} {s : Spi} (h : Between g d s) (tx : Nat)
    (htx : tx % 256 ≠ rdsrOpcode) :
    Leads s Prod.snd (fun c => bufferTransmitReceive c false tx s) (Within g d) := by
  refine shift_leads false tx 0 (by decide) (by simp [h.cur, opcode]) fun c _ => ?_
  have hcur : (bufferTransmitReceive c false tx s).2.cur =
      [⟨false, tx % 256, s.answer c, s.busy != 0⟩] := by
    simp [bufferTransmitReceive, h.cur]
  refine ⟨by simp [hcur], by simpa [hcur, opcode] using htx, h.genuine, fun _ => ?_⟩
  rw [hcur]
  rfl

/-- A command of one byte. -/
theorem Between.single {g : Bank} {d : Device} {s : Spi} (h : Between g d s) (tx : Nat)
    (htx : tx % 256 ≠ rdsrOpcode) (hread : tx % 256 ≠ fastReadOpcode) :
    Leads s Prod.snd (fun c => bufferTransmitReceive c true tx s) (Between g d) := by
  refine shift_leads true tx 0 (by decide) (by simp [h.cur, opcode]) fun c _ => ?_
  have hclose : (bufferTransmitReceive c true tx s).2 =
      s.close c [⟨true, tx % 256, s.answer c, s.busy != 0⟩] := by
    simp [bufferTransmitReceive, h.cur]
  rw [hclose]
  refine ⟨(close_frames c s _).2, ?_⟩
  rw [(close_frames c s _).1]
  exact genuine_snoc h.genuine fun _ =>
    ⟨fun hop => absurd (Option.some.inj hop) htx, fun hop => absurd (Option.some.inj hop) hread⟩

/-- A byte inside a frame. -/
theorem Within.shift {g : Bank} {d : Device} {s : Spi} (h : Within g d s) (tx : Nat) :
    Leads s Prod.snd (fun c => bufferTransmitReceive c false tx s) (Within g d) := by
  refine shift_leads false tx (s.ideal g d) (ideal_lt g d s) h.quiet fun c hc => ?_
  have hcur : (bufferTransmitReceive c false tx s).2.cur =
      s.cur ++ [⟨false, tx % 256, s.answer c, s.busy != 0⟩] := rfl
  refine ⟨by simp [hcur], ?_, h.genuine, fun hop => ?_⟩
  · rw [hcur, opcode_snoc h.opened]
    exact h.quiet
  · rw [hcur, opcode_snoc h.opened] at hop
    rw [hcur]
    exact shiftedOut_snoc (h.shifted hop) (by
      rw [hc]
      exact Nat.mod_eq_of_lt (ideal_lt g d s))

/-- The last byte of a frame. -/
theorem Within.last {g : Bank} {d : Device} {s : Spi} (h : Within g d s) (tx : Nat) :
    Leads s Prod.snd (fun c => bufferTransmitReceive c true tx s) (Between g d) := by
  refine shift_leads true tx (s.ideal g d) (ideal_lt g d s) h.quiet fun c hc => ?_
  have hclose : (bufferTransmitReceive c true tx s).2 =
      s.close c (s.cur ++ [⟨true, tx % 256, s.answer c, s.busy != 0⟩]) := rfl
  rw [hclose]
  refine ⟨(close_frames c s _).2, ?_⟩
  rw [(close_frames c s _).1]
  refine genuine_snoc h.genuine fun _ => ⟨fun hop => ?_, fun hop => ?_⟩
  · rw [opcode_snoc h.opened] at hop
    exact absurd hop h.quiet
  · rw [opcode_snoc h.opened] at hop
    exact shiftedOut_snoc (h.shifted hop) (by
      rw [hc]
      exact Nat.mod_eq_of_lt (ideal_lt g d s))

/-- A status read in full. -/
theorem readStatusRegister_eq {s : Spi} (c : Chip) (h : s.cur = []) :
    readStatusRegister c s = (s.statusByte c % 256, { s with
      frames := s.frames ++ [[⟨false, rdsrOpcode, c.data s.moved % 256, s.busy != 0⟩,
        ⟨true, 0xFF, s.statusByte c, s.busy != 0⟩]],
      cur := [], moved := s.moved + 2, busy := s.busy - 1, polls := s.polls + 1 }) := by
  simp [readStatusRegister, bufferTransmitReceive, Spi.answer, Spi.close, Spi.statusByte, h, opcode,
    rdsrOpcode]

/-- A status read, answered with the latch of the part. -/
theorem Between.status {g : Bank} {d : Device} {s : Spi} (h : Between g d s) :
    Leads s Prod.snd (fun c => readStatusRegister c s) (Between g d) := by
  intro c
  let wel := if (d.after s.frames).latch then welBit else 0
  let c' : Chip := { c with status := Function.update c.status s.polls wel }
  have hwel : s.statusByte c' &&& welBit ≠ 0 ↔ (d.after s.frames).latch = true := by
    have hstatus : c'.status s.polls = wel := Function.update_self ..
    unfold Spi.statusByte
    rw [hstatus]
    by_cases hlatch : (d.after s.frames).latch = true <;> by_cases hb : s.busy = 0 <;>
      simp [wel, hlatch, hb, welBit, wipBit]
  refine ⟨c', ⟨rfl, fun k hk => Function.update_of_ne (Nat.ne_of_lt hk) _ _, fun _ _ => rfl⟩, ?_⟩
  simp only [readStatusRegister_eq _ h.cur]
  refine ⟨⟨rfl, genuine_snoc h.genuine fun _ => ⟨fun _ => ?_, fun hop => ?_⟩⟩, Nat.le_succ _,
    Nat.le_add_right _ _, fun c'' hc => ?_⟩
  · refine ⟨?_, fun hlatch => ⟨_, rfl, hwel.mpr hlatch⟩⟩
    rintro ⟨status, hread, hne⟩
    obtain rfl : s.statusByte c' = status := Option.some.inj hread
    exact hwel.mp hne
  · exact absurd (Option.some.inj hop) (show rdsrOpcode ≠ fastReadOpcode by decide)
  · have hdata := hc.data s.moved (show s.moved < s.moved + 2 by omega)
    have hstatus := hc.status s.polls (Nat.lt_succ_self _)
    simp only [Spi.statusByte, hdata, hstatus]

/-- The poll loop, however often it may go round. -/
theorem Between.poll {g : Bank} {d : Device} {s : Spi} (h : Between g d s) (n : Nat) :
    Leads s id (fun c => pollReady c n s) (Between g d) := by
  induction n generalizing s with
  | zero => exact .pure id s h
  | succ n ih =>
    have hready : Leads s Prod.snd (fun c => isFlashReady c s) (Between g d) :=
      h.status.map (fun r => (r.1 &&& wipBit == 0, r.2)) fun _ => rfl
    refine hready.bind (fun r c => if r.1 then r.2 else pollReady c n r.2) fun r hr => ?_
    cases r.1 with
    | true => exact .pure id r.2 hr
    | false => exact ih hr

theorem Between.wait {g : Bank} {d : Device} {s : Spi} (h : Between g d s) :
    Leads s id (fun c => waitReady c s) (Between g d) := h.poll _

theorem Between.enable {g : Bank} {d : Device} {s : Spi} (h : Between g d s) :
    Leads s Prod.snd (fun c => setWriteEnable c s) (Between g d) := by
  have hwren := h.wait.bind (fun t c => bufferTransmitReceive c true wrenOpcode t)
    fun t ht => ht.single wrenOpcode (by decide) (by decide)
  have hread := hwren.bind (fun r c => readStatusRegister c r.2) fun r hr => hr.status
  exact hread.map (fun q => (q.1 &&& welBit != 0, q.2)) fun _ => rfl

/-- The address bytes of a frame that goes on, or ends with them. -/
theorem Within.address {g : Bank} {d : Device} {s : Spi} (h : Within g d s) (address : Nat) :
    Leads s id (fun c => sendAddress c address false s) (Within g d) := by
  have hbytes := (h.shift (address >>> 16 &&& 0xFF)).bind
    (fun r c => bufferTransmitReceive c false (address >>> 8 &&& 0xFF) r.2) fun r hr => hr.shift _
  refine hbytes.bind (fun r c => (bufferTransmitReceive c false (address &&& 0xFF) r.2).2)
    fun r hr => ?_
  exact (hr.shift _).map Prod.snd fun _ => rfl

theorem Within.endAddress {g : Bank} {d : Device} {s : Spi} (h : Within g d s) (address : Nat) :
    Leads s id (fun c => sendAddress c address true s) (Between g d) := by
  have hbytes := (h.shift (address >>> 16 &&& 0xFF)).bind
    (fun r c => bufferTransmitReceive c false (address >>> 8 &&& 0xFF) r.2) fun r hr => hr.shift _
  refine hbytes.bind (fun r c => (bufferTransmitReceive c true (address &&& 0xFF) r.2).2)
    fun r hr => ?_
  exact (hr.last _).map Prod.snd fun _ => rfl

theorem Within.read {g : Bank} {d : Device} {s : Spi} (h : Within g d s) (n : Nat) :
    Leads s Prod.snd (fun c => readLoop c n s) (Within g d) := by
  induction n generalizing s with
  | zero => exact .pure Prod.snd ([], s) h
  | succ n ih =>
    refine (h.shift 0xFF).bind (fun r c =>
      let rest := readLoop c n r.2
      (r.1 % 256 :: rest.1, rest.2)) fun r hr => ?_
    exact (ih hr).map (fun rest => (r.1 % 256 :: rest.1, rest.2)) fun _ => rfl

theorem Within.program {g : Bank} {d : Device} {s : Spi} (h : Within g d s) (buf : Nat → Nat)
    (n ii : Nat) : Leads s id (fun c => programLoop c buf n ii s) (Within g d) := by
  induction n generalizing s ii with
  | zero => exact .pure id s h
  | succ n ih =>
    exact (h.shift (buf ii)).bind (fun r c => programLoop c buf n (ii + 1) r.2) fun r hr => ih hr _

theorem Between.readData {g : Bank} {d : Device} {s : Spi} (h : Between g d s)
    (address len : Nat) : Leads s Prod.snd (fun c => readDataBytes c address len s)
      (Between g d) := by
  have hopen := h.wait.bind (fun t c => bufferTransmitReceive c false fastReadOpcode t)
    fun t ht => ht.first fastReadOpcode (by decide)
  have haddress := hopen.bind (fun r c => sendAddress c address false r.2)
    fun r hr => hr.address address
  have hdummy := haddress.bind (fun t c => bufferTransmitReceive c false (address &&& 0xFF) t)
    fun t ht => ht.shift _
  have hbytes := hdummy.bind (fun r c => readLoop c (predU32 len) r.2) fun r hr => hr.read _
  refine hbytes.bind (fun bytes c =>
    let last := bufferTransmitReceive c true 0xFF bytes.2
    (bytes.1 ++ [last.1 % 256], last.2)) fun bytes h => ?_
  exact (h.last 0xFF).map (fun last => (bytes.1 ++ [last.1 % 256], last.2)) fun _ => rfl

theorem Between.sector {g : Bank} {d : Device} {s : Spi} (h : Between g d s) (addr : Nat) :
    Leads s Prod.snd (fun c => sectorErase g c addr s) (Between g d) := by
  by_cases hout : addr > g.info.sectors * g.info.sectorSize
  · simp only [sectorErase, if_pos hout]
    exact .pure Prod.snd (false, s) h
  · simp only [sectorErase, if_neg hout]
    refine h.enable.bind (fun e c =>
      if e.1 then (true, sendAddress c addr true (bufferTransmitReceive c false seOpcode e.2).2)
      else (false, e.2)) fun e he => ?_
    cases e.1 with
    | false => exact .pure Prod.snd (false, e.2) he
    | true =>
      have haddress := (he.first seOpcode (by decide)).bind
        (fun r c => sendAddress c addr true r.2) fun r hr => hr.endAddress addr
      exact haddress.map (fun t => (true, t)) fun _ => rfl

theorem Between.page {g : Bank} {d : Device} {s : Spi} (h : Between g d s) (address : Nat)
    (buf : Nat → Nat) (len : Nat) :
    Leads s Prod.snd (fun c => pageProgramDataBytes g c address buf len s) (Between g d) := by
  unfold pageProgramDataBytes
  have hrefused : Leads s Prod.snd (fun _ => (false, s)) (Between g d) := .pure Prod.snd (false, s) h
  split_ifs
  · exact hrefused
  · exact hrefused
  · exact hrefused
  · refine h.enable.bind (fun e c =>
      if !e.1 then (false, e.2)
      else
        let s := sendAddress c address false (bufferTransmitReceive c false ppOpcode e.2).2
        let s := programLoop c buf (predU32 len) 0 s
        (true, (bufferTransmitReceive c true (buf (predU32 len)) s).2)) fun e he => ?_
    cases e.1 with
    | false => exact .pure Prod.snd (false, e.2) he
    | true =>
      have haddress := (he.first ppOpcode (by decide)).bind
        (fun r c => sendAddress c address false r.2) fun r hr => hr.address address
      have hdata := haddress.bind (fun t c => programLoop c buf (predU32 len) 0 t)
        fun t ht => ht.program buf _ 0
      have hlast := hdata.bind (fun t c => bufferTransmitReceive c true (buf (predU32 len)) t)
        fun t ht => ht.last _
      exact hlast.map (fun r => (true, r.2)) fun _ => rfl

theorem Between.sectors {g : Bank} {d : Device} {s : Spi} (h : Between g d s) (n i : Nat) :
    Leads s Prod.snd (fun c => eraseLoop g c n i s) (Between g d) := by
  induction n generalizing s i with
  | zero => exact .pure Prod.snd (true, s) h
  | succ n ih =>
    refine (h.sector (sectorStart g i)).bind (fun r c =>
      if r.1 then eraseLoop g c n (i + 1) r.2 else (false, r.2)) fun r hr => ?_
    cases r.1 with
    | false => exact .pure Prod.snd (false, r.2) hr
    | true => exact ih hr (i + 1)

theorem Between.chunks {g : Bank} {d : Device} {s : Spi} (h : Between g d s) (dst : Int)
    (buf : Nat → Nat) (n left total : Nat) :
    Leads s WriteResult.spi (fun c => writeLoop g c dst buf n left total s) (Between g d) := by
  induction n generalizing s left total with
  | zero => exact .pure WriteResult.spi ⟨0, some total, s⟩ h
  | succ n ih =>
    by_cases hleft : left = 0
    · simp only [writeLoop, if_pos hleft]
      exact .pure WriteResult.spi ⟨0, some total, s⟩ h
    · simp only [writeLoop, if_neg hleft]
      refine (h.page _ _ _).bind (fun r c =>
        if r.1 then writeLoop g c dst buf n (left - progSize g left) (total + progSize g left) r.2
        else ⟨eio, some total, r.2⟩) fun r hr => ?_
      cases r.1 with
      | false => exact .pure WriteResult.spi ⟨eio, some total, r.2⟩ hr
      | true => exact ih hr _ _

theorem Between.perform {g : Bank} {d : Device} {s : Spi} (h : Between g d s) (call : Call) :
    Leads s id (fun c => call.perform g c s) (Between g d) := by
  have hsame : Leads s id (fun _ => s) (Between g d) := .pure id s h
  cases call with
  | erase addr len =>
    simp only [Call.perform, spiflashErase]
    split
    · exact hsame
    · refine (h.sectors _ _).map (fun r => (if r.1 then (⟨0, some .done, r.2⟩ : EraseResult)
        else ⟨eio, some .failed, r.2⟩).spi) fun r => ?_
      cases r.1 <;> rfl
  | read start len =>
    simp only [Call.perform, spiflashRead]
    split
    · exact hsame
    · split
      · exact hsame
      · exact (h.readData _ _).map Prod.snd fun _ => rfl
  | write dst len buf =>
    simp only [Call.perform, spiflashWrite]
    split
    · exact hsame
    · split
      · exact hsame
      · exact (h.chunks _ _ _ _ _).map WriteResult.spi fun _ => rfl

theorem Between.performAll {g : Bank} {d : Device} {s : Spi} (h : Between g d s)
    (calls : List Call) : Leads s id (fun c => performAll g c s calls) (Between g d) := by
  induction calls generalizing s with
  | nil => exact .pure id s h
  | cons call calls ih =>
    exact (h.perform call).bind (fun t c => SnakeOs.Flash.performAll g c t calls)
      fun t ht => ih ht

/-- Whatever the part holds, whatever the driver is called for and however long the internal
writes take, the chip can answer all of it as the part does. -/
theorem genuine_exists (g : Bank) (d : Device) (busy : Nat) (waits : Nat → Nat)
    (calls : List Call) :
    ∃ c : Chip, c.waits = waits ∧ Genuine g d (performAll g c (Spi.init busy) calls).frames := by
  have hinit : Between g d (Spi.init busy) := ⟨rfl, trivial⟩
  obtain ⟨c, hagree, hbetween, -⟩ := hinit.performAll calls ⟨waits, fun _ => 0, fun _ => 0⟩
  exact ⟨c, hagree.waits, hbetween.genuine⟩

end SnakeOs.Flash
