import SnakeOs.Flash.Mtd

namespace SnakeOs.Flash

/-- Exactly one byte of the frame carries EOF, and it is the last one. -/
def Terminated (f : Frame) : Prop :=
  ∃ body last, f = body ++ [last] ∧ last.eof = true ∧ ∀ x ∈ body, x.eof = false

/-- The status register read by a RDSR frame is its second byte. -/
def statusRead (f : Frame) : Option Nat := (f[1]?).map Xchg.rx

def welRead (f : Frame) : Prop := ∃ status, statusRead f = some status ∧ status &&& welBit ≠ 0

/-- The 24 bit address behind the opcode. -/
def frameAddress (f : Frame) : Nat :=
  match f.map Xchg.tx with
  | _ :: a :: b :: d :: _ => a * 65536 + b * 256 + d
  | _ => 0

/-- A frame being assembled since `s`: nothing closed yet, no EOF sent, and the
chip's busy state frozen. -/
structure Opened (s t : Spi) (txs : List Nat) : Prop where
  frames : t.frames = s.frames
  busy : t.busy = s.busy
  polls : t.polls = s.polls
  sent : t.cur.map Xchg.tx = txs
  plain : ∀ x ∈ t.cur, x.eof = false ∧ x.wip = (s.busy != 0)

/-- One complete frame `f` with the bytes `txs` was sent between `s` and `u`. -/
structure Sent (s u : Spi) (f : Frame) (txs : List Nat) : Prop where
  frames : u.frames = s.frames ++ [f]
  cur : u.cur = []
  sent : f.map Xchg.tx = txs
  terminated : Terminated f
  wip : ∀ x ∈ f, x.wip = (s.busy != 0)

theorem Opened.start {s : Spi} (h : s.cur = []) : Opened s s [] :=
  ⟨rfl, rfl, rfl, by simp [h], by simp [h]⟩

theorem Opened.shift {s t : Spi} {txs : List Nat} (h : Opened s t txs) (c : Chip) (b : Nat) :
    Opened s (bufferTransmitReceive c false b t).2 (txs ++ [b % 256]) := by
  refine ⟨h.frames, h.busy, h.polls, ?_, ?_⟩
  · simp [bufferTransmitReceive, h.sent]
  · intro x hx
    simp only [bufferTransmitReceive, Bool.false_eq_true, ↓reduceIte, List.mem_append,
      List.mem_singleton] at hx
    rcases hx with hx | rfl
    · exact h.plain x hx
    · exact ⟨rfl, by simp [h.busy]⟩

theorem opcode_eq (f : Frame) : opcode f = (f.map Xchg.tx).head? := by
  simp [opcode]

theorem close_frames (c : Chip) (s : Spi) (f : Frame) :
    (s.close c f).frames = s.frames ++ [f] ∧ (s.close c f).cur = [] := by
  unfold Spi.close
  split
  · exact ⟨rfl, rfl⟩
  · split <;> exact ⟨rfl, rfl⟩

/-- Only a program or an erase can set WIP; reading the status lets it run down. -/
theorem close_busy (c : Chip) (s : Spi) (f : Frame) (hp : opcode f ≠ some ppOpcode)
    (he : opcode f ≠ some seOpcode) :
    (s.close c f).busy = if opcode f = some rdsrOpcode then s.busy - 1 else s.busy := by
  unfold Spi.close
  split
  · rename_i hr
    simp
  · simp [hp, he]

theorem Opened.finish {s t : Spi} {txs : List Nat} (h : Opened s t txs) (c : Chip) (b : Nat) :
    ∃ f, Sent s (bufferTransmitReceive c true b t).2 f (txs ++ [b % 256]) ∧
      (bufferTransmitReceive c true b t).2 = t.close c f := by
  refine ⟨t.cur ++ [⟨true, b % 256, t.answer c, t.busy != 0⟩], ⟨?_, ?_, ?_, ?_, ?_⟩, rfl⟩
  · simp [bufferTransmitReceive, close_frames, h.frames]
  · simp [bufferTransmitReceive, close_frames]
  · simp [h.sent]
  · exact ⟨t.cur, _, rfl, rfl, fun x hx => (h.plain x hx).1⟩
  · intro x hx
    rcases List.mem_append.mp hx with hx | hx
    · exact (h.plain x hx).2
    · simp only [List.mem_singleton] at hx
      subst x
      simp [h.busy]

theorem Sent.leads {s u : Spi} {f : Frame} {b : Nat} {txs : List Nat}
    (h : Sent s u f (b :: txs)) : opcode f = some b := by
  rw [opcode_eq, h.sent]
  rfl

theorem statusByte_lt (c : Chip) (s : Spi) : s.statusByte c < 256 := by
  unfold Spi.statusByte wipBit
  split <;> omega

theorem statusByte_ready (c : Chip) (s : Spi) :
    (s.statusByte c % 256 &&& wipBit == 0) = (s.busy == 0) := by
  have hm := Nat.mod_eq_of_lt (statusByte_lt c s)
  rw [hm, wipBit, Nat.and_one_is_mod]
  by_cases hb : s.busy = 0
  · simp [Spi.statusByte, hb]
  · have : s.statusByte c % 2 = 1 := by simp [Spi.statusByte, hb, wipBit]
    simp [this, hb]

/-- A status read is one two-byte frame whose answer is the status register, and
it is one poll of a running internal write. -/
theorem readStatus_sent {s : Spi} (c : Chip) (h : s.cur = []) :
    ∃ f, Sent s (readStatusRegister c s).2 f [rdsrOpcode, 0xFF] ∧
      statusRead f = some (readStatusRegister c s).1 ∧
      (readStatusRegister c s).1 = s.statusByte c % 256 ∧
      (readStatusRegister c s).2.busy = s.busy - 1 := by
  have ho := (Opened.start h).shift c rdsrOpcode
  obtain ⟨f, hf, hc⟩ := ho.finish c 0xFF
  have hop : opcode f = some rdsrOpcode := hf.leads
  refine ⟨f, hf, ?_, ?_, ?_⟩
  · obtain ⟨g, hg⟩ : ∃ g, f = g ∧ g = [⟨false, 5, s.answer c, s.busy != 0⟩,
        ⟨true, 255, s.statusByte c, s.busy != 0⟩] := by
      refine ⟨f, rfl, ?_⟩
      have := hf.frames
      have hs := statusByte_lt c s
      simp only [bufferTransmitReceive, h, List.nil_append, rdsrOpcode, ↓reduceIte,
        close_frames, Bool.false_eq_true, Spi.answer, opcode, List.head?_cons, Option.map_some] at this
      simpa [Spi.answer, h, opcode, Spi.statusByte] using (List.append_cancel_left this).symm
    have hs := statusByte_lt c s
    simp only [hg.1, hg.2, statusRead, readStatusRegister]
    simp [bufferTransmitReceive, h, Spi.answer, opcode, rdsrOpcode, Spi.statusByte]
    simp only [Spi.statusByte] at hs
    omega
  · simp [readStatusRegister, bufferTransmitReceive, h, Spi.answer, opcode, rdsrOpcode,
      Spi.statusByte]
  · change (bufferTransmitReceive c true 0xFF (bufferTransmitReceive c false rdsrOpcode s).2).2.busy
      = s.busy - 1
    rw [hc, close_busy _ _ _ (by rw [hop]; decide) (by rw [hop]; decide), if_pos hop, ho.busy]

end SnakeOs.Flash
