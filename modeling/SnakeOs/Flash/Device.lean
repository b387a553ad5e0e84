import SnakeOs.Flash.Write
import SnakeOs.Lib.Nor

namespace SnakeOs.Flash
open Arch

/-- No byte of the frame was moved during an internal write. -/
def Idle (f : Frame) : Prop := ∀ x ∈ f, x.wip = false

instance (f : Frame) : Decidable (Idle f) := inferInstanceAs (Decidable (∀ x ∈ f, x.wip = false))

instance (f : Frame) : Decidable (welRead f) :=
  match h : statusRead f with
  | some status => decidable_of_iff (status &&& welBit ≠ 0) (by simp [welRead, h])
  | none => .isFalse (by simp [welRead, h])

/-- The flash part behind the bus: its array and its write enable latch. -/
structure Device where
  array : Lib.Nor 8
  latch : Bool

/-- What the part does on a frame. It ignores everything during an internal write, and
a program or an erase without the latch; the latch falls with each of these. -/
def Device.take (d : Device) (f : Frame) : Device :=
  if ¬ Idle f then d
  else if opcode f = some wrenOpcode then { d with latch := true }
  else if d.latch ∧ (opcode f = some ppOpcode ∨ opcode f = some seOpcode) then
    ⟨frameEffect d.array f, false⟩
  else d

def Device.after (d : Device) (fs : List Frame) : Device := fs.foldl Device.take d

/-- The bytes shifted out behind the command, its address and the dummy byte. -/
def shiftedOut (f : Frame) : List Nat := (f.drop 5).map fun x => x.rx % 256

/-- What an idle part shifts out: the latch in its status register, and behind FAST_READ
the array from the address on, going on at 0 behind its end. -/
def Device.Answers (g : Bank) (d : Device) (f : Frame) : Prop :=
  Idle f →
    (opcode f = some rdsrOpcode → (welRead f ↔ d.latch = true)) ∧
    (opcode f = some fastReadOpcode → shiftedOut f =
      (List.range (f.length - 5)).map fun i => (d.array ((frameAddress f + i) % g.size)).toNat)

/-- The frames were exchanged with such a part. -/
def Genuine (g : Bank) : Device → List Frame → Prop
  | _, [] => True
  | d, f :: fs => d.Answers g f ∧ Genuine g (d.take f) fs

instance (g : Bank) (d : Device) (f : Frame) : Decidable (d.Answers g f) :=
  inferInstanceAs (Decidable (Idle f → (opcode f = some rdsrOpcode → (welRead f ↔ _)) ∧
    (opcode f = some fastReadOpcode → shiftedOut f = _)))

instance Genuine.decidable (g : Bank) (d : Device) (fs : List Frame) :
    Decidable (Genuine g d fs) :=
  match fs with
  | [] => .isTrue trivial
  | f :: fs =>
    have := Genuine.decidable g (d.take f) fs
    inferInstanceAs (Decidable (d.Answers g f ∧ Genuine g (d.take f) fs))

theorem Device.after_append (d : Device) (fs gs : List Frame) :
    d.after (fs ++ gs) = (d.after fs).after gs := List.foldl_append

theorem genuine_append {g : Bank} {d : Device} {fs gs : List Frame} :
    Genuine g d (fs ++ gs) ↔ Genuine g d fs ∧ Genuine g (d.after fs) gs := by
  induction fs generalizing d with
  | nil => simp [Genuine, Device.after]
  | cons f fs ih =>
    rw [List.cons_append, Genuine, Genuine, ih, and_assoc]
    rfl

theorem idle_of_sent {s u : Spi} {f : Frame} {txs : List Nat} (h : Sent s u f txs)
    (hb : s.busy = 0) : Idle f := fun x hx => by rw [h.wip x hx, hb]; rfl

/-- Reads leave the part alone. -/
theorem Device.take_read (d : Device) {f : Frame}
    (h : opcode f = some rdsrOpcode ∨ opcode f = some fastReadOpcode) : d.take f = d := by
  unfold Device.take
  split
  · rfl
  · rcases h with h | h <;>
      simp [h, rdsrOpcode, fastReadOpcode, wrenOpcode, ppOpcode, seOpcode]

theorem Device.after_status (d : Device) {fs : List Frame}
    (h : ∀ f ∈ fs, opcode f = some rdsrOpcode) : d.after fs = d := by
  induction fs with
  | nil => rfl
  | cons f fs ih =>
    rw [Device.after, List.foldl_cons, d.take_read (.inl (h f List.mem_cons_self))]
    exact ih fun q hq => h q (List.mem_cons_of_mem f hq)

theorem Device.take_enable (d : Device) {f : Frame} (h : opcode f = some wrenOpcode)
    (hi : Idle f) : d.take f = { d with latch := true } := by
  rw [Device.take, if_neg (not_not_intro hi), if_pos h]

theorem Device.take_latched {d : Device} {f : Frame} (hi : Idle f) (hl : d.latch = true)
    (h : opcode f = some ppOpcode ∨ opcode f = some seOpcode) :
    d.take f = ⟨frameEffect d.array f, false⟩ := by
  have hw : opcode f ≠ some wrenOpcode := by
    rcases h with h | h <;> rw [h] <;> decide
  rw [Device.take, if_neg (not_not_intro hi), if_neg hw, if_pos ⟨hl, h⟩]

/-- From `s` to `u` the frames `fs` were sent; a part in the state `d` answers them so that
the driver goes on, and is left as `e`. -/
structure Yields (g : Bank) (s u : Spi) (ok : Bool) (d e : Device) (fs : List Frame) : Prop where
  frames : u.frames = s.frames ++ fs
  resting : Resting g u
  outcome : Genuine g d fs → ok = true ∧ d.after fs = e

/-- The write enable of a genuine part always succeeds and leaves the latch set. -/
theorem setWriteEnable_yields {g : Bank} {s : Spi} (c : Chip) (h : Resting g s) (d : Device) :
    ∃ fs, Yields g s (setWriteEnable c s).2 (setWriteEnable c s).1 d { d with latch := true } fs := by
  obtain ⟨polls, hp, hpolls⟩ := pollReady_frames c (s.busy + 1) h.cur
  obtain ⟨hw, hb⟩ := waitReady_ready c h
  obtain ⟨w, hwren, hc⟩ := (Opened.start hw.cur).finish c wrenOpcode
  have hop : opcode w = some wrenOpcode := hwren.leads
  have hb' : (bufferTransmitReceive c true wrenOpcode (waitReady c s)).2.busy = 0 := by
    rw [hc, close_busy _ _ _ (by rw [hop]; decide) (by rw [hop]; decide), hop]
    exact hb
  obtain ⟨r, hrdsr, hstatus, _⟩ := readStatus_sent c hwren.cur
  have hread : opcode r = some rdsrOpcode := hrdsr.leads
  refine ⟨polls ++ [w, r], ⟨?_, (setWriteEnable_enabled c h).1, fun hg => ?_⟩⟩
  · simp only [setWriteEnable]
    rw [hrdsr.frames, hwren.frames, waitReady, hp]
    simp
  · obtain ⟨_, hlast⟩ := genuine_append.mp hg
    rw [d.after_status hpolls] at hlast
    obtain ⟨_, hr, _⟩ := hlast
    rw [d.take_enable hop (idle_of_sent hwren hb)] at hr
    have hwel : welRead r := ((hr (idle_of_sent hrdsr hb')).1 hread).mpr rfl
    constructor
    · simpa [setWriteEnable, welRead, hstatus] using hwel
    · rw [Device.after_append, d.after_status hpolls, Device.after, List.foldl_cons,
        d.take_enable hop (idle_of_sent hwren hb), List.foldl_cons, Device.take_read _ (.inl hread)]
      rfl

/-- A genuine part refuses nothing, so where it does anything may be said of it. -/
theorem Yields.refused {g : Bank} {s u : Spi} {d e : Device} {fs : List Frame}
    (h : Yields g s u false d e fs) (e' : Device) : Yields g s u false d e' fs :=
  ⟨h.frames, h.resting, fun hg => absurd (h.outcome hg).1 Bool.false_ne_true⟩

/-- A frame behind a successful write enable is taken. -/
theorem Yields.latched {g : Bank} {s u v : Spi} {d : Device} {fs : List Frame} {f : Frame}
    {txs : List Nat} (h : Yields g s u true d { d with latch := true } fs) (hb : u.busy = 0)
    (hf : Sent u v f txs) (hv : Resting g v)
    (hop : opcode f = some ppOpcode ∨ opcode f = some seOpcode) :
    Yields g s v true d ⟨frameEffect d.array f, false⟩ (fs ++ [f]) := by
  refine ⟨by rw [hf.frames, h.frames, List.append_assoc], hv, fun hg => ⟨rfl, ?_⟩⟩
  obtain ⟨hfs, _⟩ := genuine_append.mp hg
  rw [Device.after_append, (h.outcome hfs).2]
  exact Device.take_latched (idle_of_sent hf hb) rfl hop

/-- Two stretches of frames, one behind the other. -/
theorem Yields.trans {g : Bank} {s u v : Spi} {ok : Bool} {d e e' : Device} {fs gs : List Frame}
    (h : Yields g s u true d e fs) (h' : Yields g u v ok e e' gs) :
    Yields g s v ok d e' (fs ++ gs) := by
  refine ⟨by rw [h'.frames, h.frames, List.append_assoc], h'.resting, fun hg => ?_⟩
  obtain ⟨hfs, hgs⟩ := genuine_append.mp hg
  rw [(h.outcome hfs).2] at hgs
  rw [Device.after_append, (h.outcome hfs).2]
  exact h'.outcome hgs

end SnakeOs.Flash
