import SnakeOs.Flash.Array
import SnakeOs.Lib.Client

namespace SnakeOs.Flash
open Arch Lib.Client

/-- What the caller of an entry point is told. -/
structure Reply where
  ret : Int
  retlen : Option Nat
  bytes : List Nat
  state : Option EraseState
  deriving DecidableEq

def Reply.code (ret : Int) : Reply := ⟨ret, none, [], none⟩

def Call.reply (g : Bank) (c : Chip) (s : Spi) : Call → Reply
  | .erase addr len =>
    let r := spiflashErase g c addr.toNat len.toNat s
    ⟨r.ret, none, [], r.state⟩
  | .read start len =>
    let r := spiflashRead g c start.toInt len.toNat s
    ⟨r.ret, r.retlen, r.bytes, none⟩
  | .write dst len buf =>
    let r := spiflashWrite g c dst.toInt len.toNat buf s
    ⟨r.ret, r.retlen, [], none⟩

def Call.onDriver (g : Bank) (c : Chip) (s : Spi) (call : Call) : Reply × Spi :=
  (call.reply g c s, call.perform g c s)

/-- The same calls on a plain NOR array of the size of the flash. -/
def Call.onArray (g : Bank) (m : Lib.Nor 8) : Call → Reply × Lib.Nor 8
  | .erase addr len =>
    if g.size < addr.toNat + len.toNat ∨ addr.toNat % g.eraseSize ≠ 0 ∨
        len.toNat % g.eraseSize ≠ 0 then (.code einval, m)
    else (⟨0, none, [], some .done⟩, m.erase addr.toNat len.toNat)
  | .read start len =>
    if len.toNat = 0 then (.code 0, m)
    else if g.size < start.toInt.toNat + len.toNat then (.code einval, m)
    else (⟨0, some len.toNat, (m.read start.toInt.toNat len.toNat).map BitVec.toNat, none⟩, m)
  | .write dst len buf =>
    if len.toNat = 0 then (.code 0, m)
    else if g.size < dst.toInt.toNat + len.toNat then (.code einval, m)
    else (⟨0, some len.toNat, [], none⟩,
      m.program dst.toInt.toNat len.toNat fun i => BitVec.ofNat 8 (buf i))

/-- The requests the driver can serve: an erase it places right, a transfer whose range is
no `loff_t` overflow, and no write that crosses a page in its first chunk. -/
def Call.Regular (g : Bank) : Call → Prop
  | .erase addr len => EraseSafe g addr.toNat len.toNat
  | .read start len => 0 ≤ start.toInt ∧ start.toInt + len.toNat < 2 ^ 63
  | .write dst len _ => 0 ≤ dst.toInt ∧ dst.toInt + len.toNat < 2 ^ 63 ∧
      (dst.toInt + len.toNat ≤ g.size → InPages dst.toInt.toNat len.toNat)

instance (g : Bank) (addr len : Nat) : Decidable (EraseSafe g addr len) :=
  inferInstanceAs (Decidable (eraseRejects g addr len = true ∨
    addr + len < g.size ∧ (0 < len ∨ 0 < addr ∧ addr < g.size - g.info.sectorSize)))

instance (start left : Nat) : Decidable (InPages start left) :=
  inferInstanceAs (Decidable (start % 256 = 0 ∨ start % 256 + left ≤ 256))

instance (g : Bank) (call : Call) : Decidable (call.Regular g) :=
  match call with
  | .erase addr len => inferInstanceAs (Decidable (EraseSafe g addr.toNat len.toNat))
  | .read start len =>
    inferInstanceAs (Decidable (0 ≤ start.toInt ∧ start.toInt + len.toNat < 2 ^ 63))
  | .write dst len _ =>
    inferInstanceAs (Decidable (0 ≤ dst.toInt ∧ dst.toInt + len.toNat < 2 ^ 63 ∧
      (dst.toInt + len.toNat ≤ g.size → InPages dst.toInt.toNat len.toNat)))

/-- One call: the frames it sends, and on a genuine part the answer and the array of the
plain one. -/
structure Refines (g : Bank) (c : Chip) (s : Spi) (call : Call) (d : Device)
    (fs : List Frame) : Prop where
  frames : (call.perform g c s).frames = s.frames ++ fs
  outcome : Genuine g d fs → call.reply g c s = (call.onArray g d.array).1 ∧
    (d.after fs).array = (call.onArray g d.array).2

theorem erase_rejects_iff {g : Bank} {addr len : Nat} (h : EraseSafe g addr len) :
    eraseRejects g addr len = true ↔
      g.size < addr + len ∨ addr % g.eraseSize ≠ 0 ∨ len % g.eraseSize ≠ 0 := by
  obtain ⟨hsz, hn⟩ := bank_sectors g
  simp only [EraseSafe, eraseRejects, Bank.size, Bank.eraseSize, hsz, Bool.or_eq_true,
    decide_eq_true_eq, bne_iff_ne] at h ⊢
  omega

/-- Where a safe request that is not rejected starts, and how many sectors it takes. -/
theorem safe_sectors {g : Bank} {addr len : Nat} (h : EraseSafe g addr len)
    (hr : eraseRejects g addr len = false) :
    startSector g addr * spiFlashSectorSize = addr ∧
      (endSector g addr len + 1 - startSector g addr) * spiFlashSectorSize = len ∧
      startSector g addr + (endSector g addr len + 1 - startSector g addr) ≤ g.info.sectors := by
  obtain ⟨hsz, hn⟩ := bank_sectors g
  obtain ⟨a, l, rfl, rfl, hend⟩ := accepted_sectors hr
  rcases h with h | ⟨hlt, hcase⟩
  · rw [hr] at h
    contradiction
  · rw [Bank.size, hsz] at hlt hcase
    have hfirst : startSector g (a * 65536) = a := by
      rw [startSector_eq, if_pos (by omega)]
    have hlast : endSector g (a * 65536) (l * 65536) + 1 - startSector g (a * 65536) = l := by
      rw [endSector_eq g a _ (a + l) (by omega), hfirst, if_pos (by omega), predU32,
        if_neg (by omega)]
      omega
    rw [hlast, hfirst]
    exact ⟨rfl, rfl, by omega⟩

/-- A safe request ends inside the part. -/
theorem safe_fits {g : Bank} {addr len : Nat} (h : EraseSafe g addr len)
    (hr : eraseRejects g addr len = false) : addr + len ≤ g.size := by
  have hiff := erase_rejects_iff h
  rw [hr] at hiff
  have hnot := mt hiff.mpr Bool.false_ne_true
  omega

theorem onArray_erase {g : Bank} {addr len : UInt32} (m : Lib.Nor 8)
    (h : EraseSafe g addr.toNat len.toNat) (hr : eraseRejects g addr.toNat len.toNat = false) :
    (Call.erase addr len).onArray g m =
      (⟨0, none, [], some .done⟩, m.erase addr.toNat len.toNat) := by
  have hiff := erase_rejects_iff h
  rw [hr] at hiff
  exact if_neg (mt hiff.mpr Bool.false_ne_true)

theorem onArray_write {g : Bank} {dst : Int64} {len : UInt32} (m : Lib.Nor 8) (buf : Nat → Nat)
    (hl : len.toNat ≠ 0) (hfit : dst.toInt.toNat + len.toNat ≤ g.size) :
    (Call.write dst len buf).onArray g m = (⟨0, some len.toNat, [], none⟩,
      m.program dst.toInt.toNat len.toNat fun i => BitVec.ofNat 8 (buf i)) := by
  rw [Call.onArray, if_neg hl, if_neg (Nat.not_lt.mpr hfit)]

theorem erase_refines {g : Bank} {s : Spi} (c : Chip) (h : Resting g s) {addr len : UInt32}
    (hc : (Call.erase addr len).Regular g) (d : Device) :
    ∃ fs, Refines g c s (.erase addr len) d fs := by
  have hiff := erase_rejects_iff hc
  cases hr : eraseRejects g addr.toNat len.toNat with
  | true =>
    refine ⟨[], by simp [Call.perform, spiflashErase, hr], fun _ => ?_⟩
    simp only [Call.onArray, if_pos (hiff.mp hr)]
    exact ⟨by simp [Call.reply, spiflashErase, hr, Reply.code], rfl⟩
  | false =>
    obtain ⟨hfirst, hcount, hin⟩ := safe_sectors hc hr
    obtain ⟨fs, e, hy, he⟩ := eraseLoop_yields c _ (startSector g addr.toNat) h hin d
    rw [hfirst, hcount] at he
    obtain ⟨hspi, hret, hdone, _⟩ := erase_accepted c s hr rfl
    refine ⟨fs, by rw [Call.perform, hspi, hy.frames], fun hg => ?_⟩
    obtain ⟨hok, hafter⟩ := hy.outcome hg
    rw [onArray_erase d.array hc hr, hafter, he, Call.reply, hret.mpr hok, hdone (hret.mpr hok)]
    exact ⟨rfl, rfl⟩

/-- The range test of a transfer whose end is no overflow. -/
theorem loff_le (start : Int) (len : Nat) (h0 : 0 ≤ start) (h : start + len < 2 ^ 63) :
    loff (start + len) = start + len := by
  unfold loff
  exact Int.bmod_eq_of_le (by omega) (by omega)

theorem read_refines {g : Bank} {s : Spi} (c : Chip) (h : Resting g s) {start : Int64}
    {len : UInt32} (hc : (Call.read start len).Regular g) (d : Device) :
    ∃ fs, Refines g c s (.read start len) d fs := by
  obtain ⟨h0, hmax⟩ := hc
  obtain ⟨n, hn⟩ := Int.eq_ofNat_of_zero_le h0
  have hbig := (bank_size g).1
  rw [hn] at hmax
  have hloff := loff_le n len.toNat (by omega) hmax
  by_cases hl : len.toNat = 0
  · exact ⟨[], by simp [Call.perform, spiflashRead, hl], fun _ =>
      ⟨by simp [Call.reply, spiflashRead, Call.onArray, hl, Reply.code], by
        simp [Call.onArray, hl, Device.after]⟩⟩
  by_cases hfit : g.size < n + len.toNat
  · have hgt : (n : Int) + len.toNat > g.size := by omega
    exact ⟨[], by simp [Call.perform, spiflashRead, hl, hn, hloff, hgt], fun _ =>
      ⟨by simp [Call.reply, spiflashRead, Call.onArray, hl, hn, hloff, hgt, hfit, Reply.code], by
        simp [Call.onArray, hl, hn, hfit, Device.after]⟩⟩
  · obtain ⟨fs, hy⟩ := readDataBytes_yields c n len.toNat h (by omega) (by omega) d
    have hread : spiflashRead g c n len.toNat s =
        ⟨0, some len.toNat, (readDataBytes c n len.toNat s).1, (readDataBytes c n len.toNat s).2⟩ := by
      rw [spiflashRead, if_neg hl, hloff, if_neg (by omega), toU32_natCast (by omega)]
    refine ⟨fs, by rw [Call.perform, hn, hread, hy.frames], fun hg => ?_⟩
    obtain ⟨hok, hafter⟩ := hy.outcome hg
    simp only [Call.reply, hn, hread, Call.onArray, if_neg hl, Int.toNat_natCast, if_neg hfit,
      hafter, and_true]
    rw [beq_iff_eq.mp hok]

theorem write_refines {g : Bank} {s : Spi} (c : Chip) (h : Resting g s) {dst : Int64}
    {len : UInt32} {buf : Nat → Nat} (hc : (Call.write dst len buf).Regular g) (d : Device) :
    ∃ fs, Refines g c s (.write dst len buf) d fs := by
  obtain ⟨h0, hmax, hpages⟩ := hc
  obtain ⟨n, hn⟩ := Int.eq_ofNat_of_zero_le h0
  rw [hn] at hmax hpages
  have hloff := loff_le n len.toNat (by omega) hmax
  by_cases hl : len.toNat = 0
  · exact ⟨[], by simp [Call.perform, spiflashWrite, hl], fun _ =>
      ⟨by simp [Call.reply, spiflashWrite, Call.onArray, hl, Reply.code], by
        simp [Call.onArray, hl, Device.after]⟩⟩
  by_cases hfit : g.size < n + len.toNat
  · have hgt : (n : Int) + len.toNat > g.size := by omega
    exact ⟨[], by simp [Call.perform, spiflashWrite, hl, hn, hloff, hgt], fun _ =>
      ⟨by simp [Call.reply, spiflashWrite, Call.onArray, hl, hn, hloff, hgt, hfit, Reply.code], by
        simp [Call.onArray, hl, hn, hfit, Device.after]⟩⟩
  · obtain ⟨fs, e, hy, he, hlen⟩ := writeLoop_yields c n buf len.toNat len.toNat 0 h
      (Nat.le_refl _) (by omega) (hpages (by omega)) d
    have hwrite : spiflashWrite g c n len.toNat buf s =
        writeLoop g c n buf len.toNat len.toNat 0 s :=
      spiflashWrite_eq c buf s (Nat.pos_of_ne_zero hl) (by omega)
    refine ⟨fs, by rw [Call.perform, hn, hwrite, hy.frames], fun hg => ?_⟩
    obtain ⟨hok, hafter⟩ := hy.outcome hg
    have hret := beq_iff_eq.mp hok
    rw [onArray_write d.array buf hl (by rw [hn]; exact Nat.not_lt.mp hfit), hafter, he]
    simp only [Call.reply, hn, hwrite, hret, hlen hret, Int.toNat_natCast, Nat.add_zero,
      Nat.zero_add, and_self]

theorem call_refines {g : Bank} {s : Spi} (c : Chip) (h : Resting g s) {call : Call}
    (hc : call.Regular g) (d : Device) : ∃ fs, Refines g c s call d fs := by
  cases call with
  | erase addr len => exact erase_refines c h hc d
  | read start len => exact read_refines c h hc d
  | write dst len buf => exact write_refines c h hc d

theorem answers_driver (g : Bank) (c : Chip) (calls : List Call) (s : Spi) :
    (answers (Call.onDriver g c) calls s).2 = performAll g c s calls := by
  induction calls generalizing s with
  | nil => rfl
  | cons call calls ih => exact ih _

/-- A run by induction on its calls; what the part answers to one call it answers in the
state the calls before left it in. -/
theorem run_refines {g : Bank} (c : Chip) {s : Spi} (h : Resting g s) (d : Device)
    (calls : List Call) (hc : ∀ call ∈ calls, call.Regular g) :
    ∃ fs, (performAll g c s calls).frames = s.frames ++ fs ∧
      (Genuine g d fs → (answers (Call.onDriver g c) calls s).1 =
          (answers (Call.onArray g) calls d.array).1 ∧
        (d.after fs).array = (answers (Call.onArray g) calls d.array).2) := by
  induction calls generalizing s d with
  | nil => exact ⟨[], by simp [performAll], fun _ => ⟨rfl, rfl⟩⟩
  | cons call calls ih =>
    obtain ⟨fs, hf⟩ := call_refines c h (hc call List.mem_cons_self) d
    obtain ⟨gs, hgs, hrest⟩ := ih (perform_resting c h call) (d.after fs)
      fun q hq => hc q (List.mem_cons_of_mem call hq)
    refine ⟨fs ++ gs, ?_, fun hg => ?_⟩
    · refine hgs.trans ?_
      rw [hf.frames, List.append_assoc]
    · obtain ⟨hg1, hg2⟩ := genuine_append.mp hg
      obtain ⟨hreply, harray⟩ := hf.outcome hg1
      obtain ⟨hreplies, hafter⟩ := hrest hg2
      rw [harray] at hreplies hafter
      rw [Device.after_append]
      simp only [answers, Call.onDriver] at hreplies ⊢
      exact ⟨by rw [hreply, hreplies], hafter⟩

theorem performAll_genuine {g : Bank} {c : Chip} {busy : Nat} {d : Device} {calls : List Call}
    (hg : Genuine g d (performAll g c (Spi.init busy) calls).frames)
    (hc : ∀ call ∈ calls, call.Regular g) :
    (answers (Call.onDriver g c) calls (Spi.init busy)).1 =
        (answers (Call.onArray g) calls d.array).1 ∧
      (d.after (performAll g c (Spi.init busy) calls).frames).array =
        (answers (Call.onArray g) calls d.array).2 := by
  obtain ⟨fs, hf, houtcome⟩ := run_refines c (init_resting g busy) d calls hc
  have hframes : (Spi.init busy).frames = [] := rfl
  rw [hframes, List.nil_append] at hf
  rw [hf] at hg ⊢
  exact houtcome hg

theorem run_genuine {α : Type} {g : Bank} {c : Chip} {busy : Nat} {d : Device}
    {p : Lib.Client Call Reply α}
    (hg : Genuine g d (performAll g c (Spi.init busy)
      (p.issued (Call.onArray g) d.array)).frames)
    (hc : ∀ call ∈ p.issued (Call.onArray g) d.array, call.Regular g) :
    p.run (Call.onDriver g c) (Spi.init busy) = ((p.run (Call.onArray g) d.array).1,
        performAll g c (Spi.init busy) (p.issued (Call.onArray g) d.array)) ∧
      (d.after (performAll g c (Spi.init busy)
        (p.issued (Call.onArray g) d.array)).frames).array = (p.run (Call.onArray g) d.array).2 := by
  obtain ⟨hreplies, harray⟩ := performAll_genuine hg hc
  obtain ⟨hrun, _⟩ := run_of_answers p d.array (Spi.init busy) hreplies
  exact ⟨by rw [hrun, answers_driver], harray.trans (run_issued p d.array).symm⟩

/-- On a part that answers as its data sheet says, any program that calls the driver runs
as on a plain NOR array: it computes the same, and the part ends with the same contents. -/
theorem driver_refines_array {α : Type} (g : Bank) (c : Chip) (busy : Nat) (d : Device)
    (p : Lib.Client Call Reply α)
    (hg : Genuine g d (performAll g c (Spi.init busy)
      (p.issued (Call.onArray g) d.array)).frames)
    (hc : ∀ call ∈ p.issued (Call.onArray g) d.array, call.Regular g) :
    (p.run (Call.onDriver g c) (Spi.init busy)).1 = (p.run (Call.onArray g) d.array).1 ∧
      (d.after (p.run (Call.onDriver g c) (Spi.init busy)).2.frames).array =
        (p.run (Call.onArray g) d.array).2 := by
  obtain ⟨hrun, harray⟩ := run_genuine hg hc
  rw [hrun]
  exact ⟨rfl, harray⟩

/-- A sector erased, a byte read back and its complement written. -/
theorem driver_refines_array_sector :
    let p : Lib.Client Call Reply Reply := .call (.erase 0x10000 0x10000) fun _ =>
      .call (.read 0x10000 1) fun r => .call (.write 0x10000 1 fun _ => 255 - r.bytes.head!) .done
    let g : Bank := ⟨⟨64, 0x10000, 16384, 256⟩, 0x20, 0x2016, rfl⟩
    let c : Chip := ⟨fun _ => 0, fun k => if k = 1 ∨ k = 4 then welBit else 0, fun _ => 0xFF⟩
    let d : Device := ⟨fun _ => 0x3C, false⟩
    (p.run (Call.onDriver g c) (Spi.init 0)).1 = (p.run (Call.onArray g) d.array).1 ∧
      (d.after (p.run (Call.onDriver g c) (Spi.init 0)).2.frames).array =
        (p.run (Call.onArray g) d.array).2 :=
  driver_refines_array _ _ 0 _ _ (by decide +kernel) (by decide +kernel)

/-- The call leaves the cells of the range alone. -/
def Call.Spares (dst len : Nat) : Call → Prop
  | .erase addr n => addr.toNat + n.toNat ≤ dst ∨ dst + len ≤ addr.toNat
  | .read _ _ => True
  | .write d n _ => d.toInt.toNat + n.toNat ≤ dst ∨ dst + len ≤ d.toInt.toNat

theorem onArray_spares {g : Bank} {dst len a : Nat} {call : Call} (h : call.Spares dst len)
    (ha : dst ≤ a ∧ a < dst + len) (m : Lib.Nor 8) : (call.onArray g m).2 a = m a := by
  cases call with
  | erase addr n =>
    simp only [Call.Spares] at h
    simp only [Call.onArray]
    split
    · rfl
    · apply Lib.Nor.erase_of_outside
      omega
  | read start n =>
    simp only [Call.onArray]
    split
    · rfl
    · split <;> rfl
  | write d n buf =>
    simp only [Call.Spares] at h
    simp only [Call.onArray]
    split
    · rfl
    · split
      · rfl
      · refine Lib.Nor.program_of_outside m (fun i => BitVec.ofNat 8 (buf i)) ?_
        omega

theorem spares_kept {g : Bank} {dst len a : Nat} {calls : List Call}
    (h : ∀ call ∈ calls, call.Spares dst len) (ha : dst ≤ a ∧ a < dst + len) (m : Lib.Nor 8) :
    (answers (Call.onArray g) calls m).2 a = m a := by
  induction calls generalizing m with
  | nil => rfl
  | cons call calls ih =>
    refine (ih (fun q hq => h q (List.mem_cons_of_mem call hq)) _).trans ?_
    exact onArray_spares (h call List.mem_cons_self) ha m

theorem onArray_cons (g : Bank) (m : Lib.Nor 8) (call : Call) (calls : List Call) :
    answers (Call.onArray g) (call :: calls) m =
      ((call.onArray g m).1 :: (answers (Call.onArray g) calls (call.onArray g m).2).1,
        (answers (Call.onArray g) calls (call.onArray g m).2).2) := rfl

/-- Erased, written and spared ever after: the array still holds the data. -/
theorem written_holds {g : Bank} {addr n len : UInt32} {dst : Int64} {buf : Nat → Nat}
    {between after : List Call} (m : Lib.Nor 8)
    (herase : eraseRejects g addr.toNat n.toNat = false)
    (hsafe : (Call.erase addr n).Regular g)
    (hin : addr.toNat ≤ dst.toInt.toNat ∧ dst.toInt.toNat + len.toNat ≤ addr.toNat + n.toNat)
    (hl : 0 < len.toNat)
    (hbetween : ∀ call ∈ between, call.Spares dst.toInt.toNat len.toNat)
    (hafter : ∀ call ∈ after, call.Spares dst.toInt.toNat len.toNat) {i : Nat}
    (hi : i < len.toNat) :
    (answers (Call.onArray g) (.erase addr n :: between ++ .write dst len buf :: after) m).2
      (dst.toInt.toNat + i) = BitVec.ofNat 8 (buf i) := by
  have hcell : (answers (Call.onArray g) between (m.erase addr.toNat n.toNat)).2
      (dst.toInt.toNat + i) = _ :=
    spares_kept hbetween ⟨by omega, by omega⟩ _
  rw [Lib.Nor.erase, if_pos ⟨by omega, by omega⟩] at hcell
  rw [List.cons_append, onArray_cons, onArray_erase m hsafe herase, answers_append, onArray_cons,
    onArray_write _ buf (by omega) (Nat.le_trans hin.2 (safe_fits hsafe herase))]
  refine (spares_kept hafter ⟨by omega, by omega⟩ _).trans ?_
  have hplace : dst.toInt.toNat ≤ dst.toInt.toNat + i ∧
      dst.toInt.toNat + i < dst.toInt.toNat + len.toNat := by omega
  refine (Lib.Nor.program_erased _ (fun k => BitVec.ofNat 8 (buf k)) hplace hcell).trans ?_
  rw [Nat.add_sub_cancel_left]

/-- Data written to an erased range is what every later read of it returns, whatever else
is done to the flash in the meantime. -/
theorem written_data_kept (g : Bank) (c : Chip) (busy : Nat) (d : Device) (addr n len : UInt32)
    (dst : Int64) (buf : Nat → Nat) (before between after : List Call)
    (hg : Genuine g d (performAll g c (Spi.init busy) (before ++ .erase addr n :: between ++
      .write dst len buf :: after ++ [.read dst len])).frames)
    (hc : ∀ call ∈ before ++ .erase addr n :: between ++ .write dst len buf :: after ++
      [.read dst len], call.Regular g)
    (herase : eraseRejects g addr.toNat n.toNat = false) (hl : 0 < len.toNat)
    (hin : addr.toNat ≤ dst.toInt.toNat ∧ dst.toInt.toNat + len.toNat ≤ addr.toNat + n.toNat)
    (hbetween : ∀ call ∈ between, call.Spares dst.toInt.toNat len.toNat)
    (hafter : ∀ call ∈ after, call.Spares dst.toInt.toNat len.toNat) :
    (answers (Call.onDriver g c) (before ++ .erase addr n :: between ++ .write dst len buf ::
      after ++ [.read dst len]) (Spi.init busy)).1.getLast? =
        some ⟨0, some len.toNat, (List.range len.toNat).map fun i => buf i % 256, none⟩ := by
  have hsafe : (Call.erase addr n).Regular g := hc _ (by simp)
  rw [(performAll_genuine hg hc).1, answers_append, List.append_assoc, answers_append]
  simp only [List.getLast?_append, answers, List.getLast?_singleton, Option.some_or]
  have hfit := Nat.le_trans hin.2 (safe_fits hsafe herase)
  rw [Call.onArray, if_neg (by omega), if_neg (by omega)]
  simp only [Option.some.injEq, Reply.mk.injEq, true_and, and_true, Lib.Nor.read, List.map_map]
  refine List.map_congr_left fun i hi => ?_
  rw [List.mem_range] at hi
  rw [Function.comp_apply, written_holds _ herase hsafe hin hl hbetween hafter hi]
  exact BitVec.toNat_ofNat _ _

theorem written_data_kept_pair :
    let g : Bank := ⟨⟨64, 0x10000, 16384, 256⟩, 0x20, 0x2016, rfl⟩
    let c : Chip := ⟨fun _ => 0, fun k => k % 2 * welBit, fun _ => 0x5A⟩
    (answers (Call.onDriver g c) ([] ++ .erase 0x10000 0x10000 :: [] ++ .write 0x10000 2
      (fun _ => 0x5A) :: [.write 0x10002 1 fun _ => 0] ++ [.read 0x10000 2])
      (Spi.init 0)).1.getLast? =
        some ⟨0, some 2, [0x5A, 0x5A], none⟩ :=
  written_data_kept _ _ 0 ⟨fun _ => 0, false⟩ 0x10000 0x10000 2 0x10000 _ [] [] _
    (by decide +kernel) (by decide +kernel) (by decide +kernel) (by decide) (by decide +kernel)
    (by simp) (by
      intro call hc
      obtain rfl := List.mem_singleton.mp hc
      exact .inr (by decide))

end SnakeOs.Flash
