import Mathlib.Algebra.Order.BigOperators.Group.List
import Mathlib.Algebra.Order.Ring.Nat
import SnakeOs.Spi.Bitbang

namespace SnakeOs.Spi

/-- The byte a transfer sends at position `i`. -/
def Transfer.byte (t : Transfer) (i : Nat) : Byte :=
  match t.txBuf with
  | some tx => tx i
  | none => 0xff

/-- The bytes a transfer is to send. -/
def Transfer.bytes (t : Transfer) : List Byte := (List.range t.len).map t.byte

/-- A transfer `bitbang_work` does not answer with `-EINVAL`. -/
def Transfer.Buffered (t : Transfer) : Prop :=
  t.txBuf.isSome = true ∨ t.rxBuf = true ∨ t.len = 0

/-- The position in the message of the first byte of the k-th transfer. -/
def offset (ts : List Transfer) (k : Nat) : Nat := ((ts.take k).map Transfer.len).sum

/-- What a message is to do: its bytes go out in order, the EOF flag stands on the
last byte clocked and on no other, and each receive buffer gets at every position the
byte clocked in there. -/
structure MessageExact (ts : List Transfer) (c : Completed) : Prop where
  out : c.xchgs.map Xchg.out = ts.flatMap Transfer.bytes
  eof : ∀ k x, c.xchgs[k]? = some x → (x.eof = true ↔ k + 1 = c.xchgs.length)
  received : ∀ k t, ts[k]? = some t → t.rxBuf = true → ∀ i < t.len, ∃ rx x,
    c.rxs[k]? = some rx ∧ c.xchgs[offset ts k + i]? = some x ∧ rx i = some x.inn

/-- When the driver does that: the message moves no byte at all, or the last transfer
of its list moves some, no transfer before it that moves bytes has both buffers, and
none is longer than the signed count of the driver. -/
def Served (shutdown : Bool) (ts : List Transfer) : Prop :=
  (∀ t ∈ ts, t.len = 0) ∨
    (shutdown = false ∧ (∀ t ∈ ts, t.len ≤ 2 ^ 31) ∧ (∃ l ∈ ts.getLast?, 0 < l.len) ∧
      ∀ t ∈ ts.dropLast, 0 < t.len → ¬(t.txBuf.isSome = true ∧ t.rxBuf = true))

/-! One exchange and one transfer. -/

@[simp] theorem chipselect_xchgs (apbClock : Nat) (spi : SpiDevice) (v : ChipSelect) (b : Bus) :
    (str8100SpiChipselect apbClock spi v b).xchgs = b.xchgs := by
  cases v <;> rfl

/-- What is put on the bus at the k-th exchange. -/
def xchgAt (w : Slave) (channel : BitVec 8) (eof : Bool) (byte : Byte) (k : Nat) : Xchg :=
  ⟨channel.setWidth 2, eof, byte, (w.buffer k).setWidth 8⟩

theorem control_eof (control : BitVec 32) (channel : BitVec 8) (eof : Bool) :
    ((control &&& ~~~0x7#32) ||| ((channel.setWidth 32 &&& 0x3#32) |||
      ((BitVec.ofBool eof).setWidth 32 <<< 2))).getLsbD 2 = eof := by
  cases eof <;> simp

theorem control_channel (control : BitVec 32) (channel : BitVec 8) (eof : Bool) :
    ((control &&& ~~~0x7#32) ||| ((channel.setWidth 32 &&& 0x3#32) |||
      ((BitVec.ofBool eof).setWidth 32 <<< 2))).setWidth 2 = channel.setWidth 2 := by
  refine BitVec.eq_of_getLsbD_eq fun i hi => ?_
  have hcases : i = 0 ∨ i = 1 := by omega
  rcases hcases with rfl | rfl <;> cases eof <;> simp

theorem txRx_xchgs (w : Slave) (channel : BitVec 8) (eof : Bool) (byte : Byte) (b : Bus) :
    (str8100SpiTxRx w channel eof (byte.setWidth 32) b).2.2.xchgs =
      b.xchgs ++ [xchgAt w channel eof byte b.xchgs.length] := by
  simp only [str8100SpiTxRx, xchgAt, setTransmitControl, control_eof, control_channel]
  simp

theorem exchange_xchgs (w : Slave) (channel : BitVec 8) (eof : Bool) (byte : Byte) (keep : Bool)
    (i : Nat) (p : Rx × Bus) :
    (exchange w channel eof byte keep i p).2.xchgs =
      p.2.xchgs ++ [xchgAt w channel eof byte p.2.xchgs.length] :=
  txRx_xchgs w channel eof byte p.2

theorem exchange_rx (w : Slave) (channel : BitVec 8) (eof : Bool) (byte : Byte) (keep : Bool)
    (i : Nat) (p : Rx × Bus) :
    (exchange w channel eof byte keep i p).1 =
      if keep then Function.update p.1 i (some ((w.buffer p.2.xchgs.length).setWidth 8))
      else p.1 := rfl

theorem exchangeLoop_succ (w : Slave) (channel : BitVec 8) (byte : Nat → Byte) (keep : Bool)
    (n : Nat) (p : Rx × Bus) :
    exchangeLoop w channel byte keep (n + 1) p =
      exchange w channel false (byte n) keep n (exchangeLoop w channel byte keep n p) := by
  simp [exchangeLoop, List.range_succ, List.foldl_append]

theorem exchangeLoop_xchgs (w : Slave) (channel : BitVec 8) (byte : Nat → Byte) (keep : Bool)
    (n : Nat) (p : Rx × Bus) :
    (exchangeLoop w channel byte keep n p).2.xchgs =
      p.2.xchgs ++ (List.range n).map
        fun i => xchgAt w channel false (byte i) (p.2.xchgs.length + i) := by
  induction n with
  | zero => simp [exchangeLoop]
  | succ n ih =>
    rw [exchangeLoop_succ, exchange_xchgs, ih, List.range_succ, List.map_append, List.append_assoc]
    simp

theorem exchangeLoop_rx (w : Slave) (channel : BitVec 8) (byte : Nat → Byte) (keep : Bool)
    (n : Nat) (b : Bus) (i : Nat) :
    (exchangeLoop w channel byte keep n (fun _ => none, b)).1 i =
      if keep = true ∧ i < n then some ((w.buffer (b.xchgs.length + i)).setWidth 8) else none := by
  induction n with
  | zero => simp [exchangeLoop]
  | succ n ih =>
    rw [exchangeLoop_succ, exchange_rx, exchangeLoop_xchgs]
    cases keep with
    | false => simpa using ih
    | true =>
      by_cases hi : i = n
      · subst i
        simp
      · rw [if_pos rfl, Function.update_of_ne hi, ih]
        have hiff : i < n ↔ i < n + 1 := by omega
        simp [hiff]

/-- The exchanges of a transfer that starts at the k-th exchange of the bus. -/
def Transfer.clocked (w : Slave) (channel : BitVec 8) (t : Transfer) (last : Bool) (k : Nat) :
    List Xchg :=
  (List.range (loopCount t.len)).map
      (fun i => xchgAt w channel false (t.byte i) (k + i)) ++
    [xchgAt w channel last (t.byte (loopCount t.len)) (k + loopCount t.len)]

/-- Whether a transfer with an `rx` buffer stores the byte that comes in at position `i`:
the copy of the exchange for the last byte of a transfer that sends and is not the last of
its list stores nothing. -/
def Transfer.keeps (t : Transfer) (last : Bool) (i : Nat) : Prop :=
  t.rxBuf = true ∧ (i < loopCount t.len ∨
    (i = loopCount t.len ∧ (last = true ∨ t.txBuf.isSome = false)))

instance (t : Transfer) (last : Bool) (i : Nat) : Decidable (t.keeps last i) :=
  inferInstanceAs (Decidable (_ ∧ _))

theorem txrx_xchgs {t : Transfer} (w : Slave) (spi : SpiDevice) (last : Bool) (b : Bus)
    (h : t.txBuf.isSome = true ∨ t.rxBuf = true) :
    (str8100SpiTxrx w spi t last b).2.2.xchgs =
      b.xchgs ++ t.clocked w spi.chipSelect last b.xchgs.length := by
  unfold str8100SpiTxrx Transfer.clocked
  cases htx : t.txBuf with
  | some tx =>
    have hb : t.byte = tx := funext fun i => by simp [Transfer.byte, htx]
    cases last <;> simp [exchange_xchgs, exchangeLoop_xchgs, hb]
  | none =>
    have hrx : t.rxBuf = true := by simpa [htx] using h
    have hb : t.byte = fun _ => 0xff := funext fun i => by simp [Transfer.byte, htx]
    cases last <;> simp [exchange_xchgs, exchangeLoop_xchgs, hb, hrx]

theorem txrx_rx {t : Transfer} (w : Slave) (spi : SpiDevice) (last : Bool) (b : Bus) (i : Nat) :
    (str8100SpiTxrx w spi t last b).2.1 i =
      if t.keeps last i then some ((w.buffer (b.xchgs.length + i)).setWidth 8) else none := by
  have hlast : ∀ (byte : Nat → Byte) (keep : Bool) (eof : Bool) (v : Byte),
      (exchange w spi.chipSelect eof v keep (loopCount t.len)
        (exchangeLoop w spi.chipSelect byte keep (loopCount t.len) (fun _ => none, b))).1 i =
      if keep = true ∧ (i < loopCount t.len ∨ i = loopCount t.len) then
        some ((w.buffer (b.xchgs.length + i)).setWidth 8) else none := by
    intro byte keep eof v
    rw [exchange_rx, exchangeLoop_xchgs]
    cases keep with
    | false => simp [exchangeLoop_rx]
    | true =>
      by_cases hi : i = loopCount t.len
      · subst i
        simp
      · rw [if_pos rfl, Function.update_of_ne hi, exchangeLoop_rx]
        simp [hi]
  cases htx : t.txBuf with
  | some tx =>
    cases last with
    | true => simp [str8100SpiTxrx, Transfer.keeps, htx, hlast]
    | false => simp [str8100SpiTxrx, Transfer.keeps, htx, exchange_rx, exchangeLoop_rx]
  | none =>
    cases hrx : t.rxBuf <;> cases last <;> simp [str8100SpiTxrx, Transfer.keeps, htx, hrx, hlast]

/-! The transfers of a message. -/

/-- The bytes a transfer moves. -/
def Transfer.moved (t : Transfer) : Nat := if t.len = 0 then 0 else loopCount t.len + 1

theorem loopCount_short {len : Nat} (h : 0 < len) (hl : len ≤ 2 ^ 31) :
    loopCount len = len - 1 := by
  unfold loopCount
  rw [Int.bmod_eq_of_le (by omega) (by omega)]
  omega

theorem loopCount_long {len : Nat} (h : 2 ^ 31 < len) (hl : len < 2 ^ 32) :
    loopCount len = 0 := by
  unfold loopCount
  have hb : ((len : Int) - 1).bmod (2 ^ 32) = (len : Int) - 1 - 2 ^ 32 := by
    rw [← Int.sub_bmod_right, Int.bmod_eq_of_le] <;> omega
  rw [hb]
  omega

/-- Counting with an `int`, the driver moves all of a transfer up to 2^31 bytes, and one byte of
a longer one. -/
theorem Transfer.moved_eq (t : Transfer) : t.moved = if t.len ≤ 2 ^ 31 then t.len else 1 := by
  unfold Transfer.moved
  by_cases h0 : t.len = 0
  · simp [h0]
  · rw [if_neg h0]
    by_cases hl : t.len ≤ 2 ^ 31
    · rw [loopCount_short (by omega) hl, if_pos hl]
      omega
    · rw [loopCount_long (by omega) t.len_lt, if_neg hl]

theorem Transfer.moved_le (t : Transfer) : t.moved ≤ t.len := by
  rw [t.moved_eq]
  split <;> omega

theorem Transfer.moved_eq_iff (t : Transfer) : t.moved = t.len ↔ t.len ≤ 2 ^ 31 := by
  rw [t.moved_eq]
  split <;> omega

/-- The exchanges of a list of transfers that starts at the k-th exchange. -/
def clockedAll (w : Slave) (channel : BitVec 8) : List Transfer → Nat → List Xchg
  | [], _ => []
  | t :: rest, k =>
    (if t.len = 0 then [] else t.clocked w channel rest.isEmpty k) ++
      clockedAll w channel rest (k + t.moved)

/-- What they leave in their receive buffers. -/
def storedAll (w : Slave) : List Transfer → Nat → List Rx
  | [], _ => []
  | t :: rest, k =>
    (fun i => if t.len ≠ 0 ∧ t.keeps rest.isEmpty i then some ((w.buffer (k + i)).setWidth 8)
      else none) :: storedAll w rest (k + t.moved)

theorem Transfer.clocked_length (w : Slave) (channel : BitVec 8) (t : Transfer) (last : Bool)
    (k : Nat) (h : t.len ≠ 0) : (t.clocked w channel last k).length = t.moved := by
  simp [Transfer.clocked, Transfer.moved, h]

theorem txrx_status {t : Transfer} (w : Slave) (spi : SpiDevice) (last : Bool) (b : Bus) :
    (str8100SpiTxrx w spi t last b).1 % 2 ^ 32 = t.len := by
  have hdone : (str8100SpiTxrx w spi t last b).1 = (t.len : Int).bmod (2 ^ 32) := by
    unfold str8100SpiTxrx
    cases t.txBuf <;> cases t.rxBuf <;> cases last <;> simp
  have hlt := t.len_lt
  have hmod : (t.len : Int).bmod (2 ^ 32) % ((2 ^ 32 : Nat) : Int) = t.len % ((2 ^ 32 : Nat) : Int) :=
    Int.bmod_emod
  rw [hdone]
  omega

/-- A walk no shutdown cuts short, over transfers that have their buffers. -/
theorem walk_spec (w : Slave) (apbClock : Nat) (spi : SpiDevice) {ts : List Transfer}
    (h : ∀ t ∈ ts, t.Buffered) (csChange : Bool) (actual : Nat) (b : Bus) :
    (walkTransfers w apbClock false spi ts csChange actual b).bus.xchgs =
        b.xchgs ++ clockedAll w spi.chipSelect ts b.xchgs.length ∧
      (walkTransfers w apbClock false spi ts csChange actual b).rxs =
        storedAll w ts b.xchgs.length := by
  induction ts generalizing csChange actual b with
  | nil => simp [walkTransfers, clockedAll, storedAll]
  | cons t rest ih =>
    have hrest := ih fun q hq => h q (List.mem_cons_of_mem t hq)
    have hb : ¬(t.txBuf.isNone ∧ t.rxBuf = false ∧ t.len ≠ 0) := by
      rintro ⟨htx, hrx, hl⟩
      rcases h t List.mem_cons_self with hs | hs | hs
      · simp [Option.isNone_iff_eq_none.mp htx] at hs
      · simp [hrx] at hs
      · exact hl hs
    set b₀ := if csChange then str8100SpiChipselect apbClock spi .active b else b with hb₀
    have hx₀ : b₀.xchgs = b.xchgs := by
      rw [hb₀]
      split <;> simp
    rw [walkTransfers, if_neg (by simp), ← hb₀]
    simp only [hb, if_false]
    by_cases hl : t.len = 0
    · simp only [hl, ne_eq, not_true_eq_false, if_false, clockedAll, storedAll, Transfer.moved]
      rw [if_neg (by simp)]
      obtain ⟨hx, hr⟩ := hrest t.csChange (((actual : Int) + 0) % 2 ^ 32).toNat
        (if t.csChange = true ∧ rest ≠ [] then str8100SpiChipselect apbClock spi .inactive b₀
          else b₀)
      have hxb : (if t.csChange = true ∧ rest ≠ [] then
          str8100SpiChipselect apbClock spi .inactive b₀ else b₀).xchgs = b.xchgs := by
        split <;> simp [hx₀]
      rw [hxb] at hx hr
      exact ⟨by simpa using hx, by simpa using hr⟩
    · have hbuf : t.txBuf.isSome = true ∨ t.rxBuf = true := by
        rcases h t List.mem_cons_self with hs | hs | hs
        · exact .inl hs
        · exact .inr hs
        · exact absurd hs hl
      simp only [ne_eq, hl, not_false_eq_true, if_true, txrx_status, not_true_eq_false, if_false,
        clockedAll, storedAll, true_and]
      set r := str8100SpiTxrx w spi t rest.isEmpty b₀ with hr₀
      have hxr : r.2.2.xchgs = b.xchgs ++ t.clocked w spi.chipSelect rest.isEmpty b.xchgs.length := by
        rw [hr₀, txrx_xchgs w spi rest.isEmpty b₀ hbuf, hx₀]
      obtain ⟨hx, hr⟩ := hrest t.csChange (((actual : Int) + r.1) % 2 ^ 32).toNat
        (if t.csChange = true ∧ rest ≠ [] then str8100SpiChipselect apbClock spi .inactive r.2.2
          else r.2.2)
      have hxb : (if t.csChange = true ∧ rest ≠ [] then
          str8100SpiChipselect apbClock spi .inactive r.2.2 else r.2.2).xchgs =
          b.xchgs ++ t.clocked w spi.chipSelect rest.isEmpty b.xchgs.length := by
        split <;> simp [hxr]
      rw [hxb, List.length_append, t.clocked_length w _ _ _ hl] at hx hr
      refine ⟨by rw [hx, List.append_assoc], ?_⟩
      rw [hr]
      congr 1
      funext i
      rw [hr₀, txrx_rx w spi rest.isEmpty b₀ i, hx₀]

theorem Transfer.clocked_out (w : Slave) (channel : BitVec 8) {t : Transfer} (last : Bool) (k : Nat)
    (h : 0 < t.len) (hl : t.len ≤ 2 ^ 31) :
    (t.clocked w channel last k).map Xchg.out = t.bytes := by
  have hn : t.len = loopCount t.len + 1 := by
    rw [loopCount_short h hl]
    omega
  rw [Transfer.bytes, hn, List.range_succ, Transfer.clocked]
  simp [xchgAt, Function.comp_def]

theorem clockedAll_out (w : Slave) (channel : BitVec 8) {ts : List Transfer} (k : Nat)
    (h : ∀ t ∈ ts, t.len ≤ 2 ^ 31) :
    (clockedAll w channel ts k).map Xchg.out = ts.flatMap Transfer.bytes := by
  induction ts generalizing k with
  | nil => rfl
  | cons t rest ih =>
    have htail := ih (k + t.moved) fun q hq => h q (List.mem_cons_of_mem t hq)
    rw [clockedAll, List.map_append, htail, List.flatMap_cons]
    by_cases hl : t.len = 0
    · simp [hl, Transfer.bytes]
    · rw [if_neg hl, t.clocked_out w channel rest.isEmpty k (by omega) (h t List.mem_cons_self)]

theorem clockedAll_length (w : Slave) (channel : BitVec 8) (ts : List Transfer) (k : Nat) :
    (clockedAll w channel ts k).length = (ts.map Transfer.moved).sum := by
  induction ts generalizing k with
  | nil => rfl
  | cons t rest ih =>
    rw [clockedAll, List.length_append, ih, List.map_cons, List.sum_cons]
    by_cases hl : t.len = 0
    · simp [hl, Transfer.moved]
    · rw [if_neg hl, t.clocked_length w channel _ _ hl]

theorem flatMap_bytes_length (ts : List Transfer) :
    (ts.flatMap Transfer.bytes).length = (ts.map Transfer.len).sum := by
  rw [List.length_flatMap]
  simp [Transfer.bytes]

/-- Transfers that together move as much as they are to move each do so. -/
theorem lens_of_moved {ts : List Transfer}
    (h : (ts.map Transfer.moved).sum = (ts.map Transfer.len).sum) : ∀ t ∈ ts, t.len ≤ 2 ^ 31 := by
  induction ts with
  | nil => simp
  | cons t rest ih =>
    have hle : (rest.map Transfer.moved).sum ≤ (rest.map Transfer.len).sum :=
      List.sum_le_sum fun q _ => q.moved_le
    have ht := t.moved_le
    simp only [List.map_cons, List.sum_cons] at h
    refine List.forall_mem_cons.mpr ⟨t.moved_eq_iff.mp (by omega), ih (by omega)⟩

/-- The k-th exchange of a transfer brings in the slave's k-th answer. -/
theorem Transfer.clocked_inn (w : Slave) (channel : BitVec 8) {t : Transfer} {last : Bool} {k j : Nat}
    {x : Xchg} (h : (t.clocked w channel last k)[j]? = some x) :
    x.inn = (w.buffer (k + j)).setWidth 8 := by
  unfold Transfer.clocked at h
  by_cases hj : j < loopCount t.len
  · rw [List.getElem?_append_left (by simpa using hj)] at h
    simp only [List.getElem?_map, List.getElem?_range hj, Option.map_some, Option.some.injEq] at h
    rw [← h]
    rfl
  · rw [List.getElem?_append_right (by simpa using hj), List.length_map, List.length_range] at h
    obtain ⟨hlt, hx⟩ := List.getElem?_eq_some_iff.mp h
    have hj' : j = loopCount t.len := by
      simp only [List.length_singleton] at hlt
      omega
    subst j
    simp only [Nat.sub_self, List.getElem_cons_zero] at hx
    rw [← hx]
    rfl

theorem clockedAll_inn (w : Slave) (channel : BitVec 8) {ts : List Transfer} {k j : Nat} {x : Xchg}
    (h : (clockedAll w channel ts k)[j]? = some x) : x.inn = (w.buffer (k + j)).setWidth 8 := by
  induction ts generalizing k j with
  | nil => simp [clockedAll] at h
  | cons t rest ih =>
    rw [clockedAll] at h
    by_cases hl : t.len = 0
    · have hm : t.moved = 0 := by simp [Transfer.moved, hl]
      rw [if_pos hl, List.nil_append, hm] at h
      exact ih h
    · rw [if_neg hl] at h
      have hlen := t.clocked_length w channel rest.isEmpty k hl
      by_cases hj : j < t.moved
      · rw [List.getElem?_append_left (by omega)] at h
        exact t.clocked_inn w channel h
      · rw [List.getElem?_append_right (by omega), hlen] at h
        rw [ih h]
        congr 2
        omega

theorem Transfer.clocked_quiet (w : Slave) (channel : BitVec 8) (t : Transfer) (k : Nat) :
    ∀ x ∈ t.clocked w channel false k, x.eof = false := by
  intro x hx
  rcases List.mem_append.mp hx with hx | hx
  · obtain ⟨i, _, rfl⟩ := List.mem_map.mp hx
    rfl
  · rw [List.mem_singleton.mp hx]
    rfl

/-- A list whose last transfer moves nothing never raises EOF. -/
theorem clockedAll_quiet (w : Slave) (channel : BitVec 8) (ts : List Transfer) (k : Nat)
    (h : ∀ l ∈ ts.getLast?, l.len = 0) : ∀ x ∈ clockedAll w channel ts k, x.eof = false := by
  induction ts generalizing k with
  | nil => simp [clockedAll]
  | cons t rest ih =>
    intro x hx
    cases rest with
    | nil =>
      have hl : t.len = 0 := h t (by simp)
      simp [clockedAll, hl] at hx
    | cons q rest =>
      rw [clockedAll] at hx
      rcases List.mem_append.mp hx with hx | hx
      · by_cases hl : t.len = 0
        · simp [hl] at hx
        · rw [if_neg hl] at hx
          exact t.clocked_quiet w channel k x hx
      · exact ih (k + t.moved) (by simpa [List.getLast?_cons_cons] using h) x hx

/-- One whose last transfer moves bytes raises it with its last byte only. -/
theorem clockedAll_eof (w : Slave) (channel : BitVec 8) {ts : List Transfer} (k : Nat)
    (h : ∃ l ∈ ts.getLast?, 0 < l.len) : ∃ xs x, clockedAll w channel ts k = xs ++ [x] ∧
      x.eof = true ∧ ∀ y ∈ xs, y.eof = false := by
  induction ts generalizing k with
  | nil => simp at h
  | cons t rest ih =>
    cases rest with
    | nil =>
      have hl : t.len ≠ 0 := by
        obtain ⟨l, hl, hpos⟩ := h
        simp only [List.getLast?_singleton, Option.mem_def, Option.some.injEq] at hl
        subst hl
        omega
      refine ⟨(List.range (loopCount t.len)).map
          (fun i => xchgAt w channel false (t.byte i) (k + i)),
        xchgAt w channel true (t.byte (loopCount t.len)) (k + loopCount t.len),
        by simp [clockedAll, hl, Transfer.clocked], rfl, ?_⟩
      intro y hy
      obtain ⟨i, _, rfl⟩ := List.mem_map.mp hy
      rfl
    | cons q rest =>
      obtain ⟨xs, x, he, hx, hxs⟩ := ih (k + t.moved) (by simpa [List.getLast?_cons_cons] using h)
      refine ⟨_ ++ xs, x, by rw [clockedAll, he, List.append_assoc], hx, ?_⟩
      intro y hy
      rcases List.mem_append.mp hy with hy | hy
      · by_cases hl : t.len = 0
        · simp [hl] at hy
        · rw [if_neg hl] at hy
          exact t.clocked_quiet w channel k y hy
      · exact hxs y hy

theorem storedAll_at (w : Slave) {ts : List Transfer} {j : Nat} {t : Transfer} (k : Nat)
    (h : ts[j]? = some t) :
    (storedAll w ts k)[j]? = some fun i =>
      if t.len ≠ 0 ∧ t.keeps (decide (j + 1 = ts.length)) i then
        some ((w.buffer (k + ((ts.take j).map Transfer.moved).sum + i)).setWidth 8) else none := by
  induction ts generalizing j k with
  | nil => simp at h
  | cons q rest ih =>
    cases j with
    | zero =>
      obtain rfl : q = t := by simpa using h
      have hlast : rest.isEmpty = decide (0 + 1 = (q :: rest).length) := by
        cases rest <;> simp
      simp [storedAll, hlast]
    | succ j =>
      have htail := ih (k + q.moved) (by simpa using h)
      rw [storedAll, List.getElem?_cons_succ, htail]
      simp [Nat.add_assoc]

theorem offset_moved {ts : List Transfer} (j : Nat) (h : ∀ t ∈ ts, t.len ≤ 2 ^ 31) :
    ((ts.take j).map Transfer.moved).sum = offset ts j := by
  unfold offset
  congr 1
  refine List.map_congr_left fun t ht => t.moved_eq_iff.mpr (h t (List.mem_of_mem_take ht))

/-- With bytes in the last transfer, the EOF flag stands on the last byte only. -/
theorem clockedAll_eof_iff (w : Slave) (channel : BitVec 8) {ts : List Transfer} {n k : Nat}
    {x : Xchg} (hlast : ∃ l ∈ ts.getLast?, 0 < l.len)
    (hk : (clockedAll w channel ts n)[k]? = some x) :
    x.eof = true ↔ k + 1 = (clockedAll w channel ts n).length := by
  obtain ⟨xs, z, he, hz, hxs⟩ := clockedAll_eof w channel n hlast
  rw [he] at hk ⊢
  by_cases hkl : k < xs.length
  · rw [List.getElem?_append_left hkl] at hk
    simp [hxs x (List.mem_of_getElem? hk)]
    omega
  · obtain ⟨hlt, _⟩ := List.getElem?_eq_some_iff.mp hk
    have hke : k = xs.length := by
      simp only [List.length_append, List.length_singleton] at hlt
      omega
    subst k
    obtain rfl : z = x := by simpa using hk
    simp [hz]

/-- A transfer with one buffer, or the last of the message, keeps every byte. -/
theorem keeps_of_served {ts : List Transfer} (hlen : ∀ t ∈ ts, t.len ≤ 2 ^ 31)
    (hone : ∀ t ∈ ts.dropLast, 0 < t.len → ¬(t.txBuf.isSome = true ∧ t.rxBuf = true)) {k : Nat}
    {t : Transfer} (ht : ts[k]? = some t) (hrx : t.rxBuf = true) {i : Nat} (hi : i < t.len) :
    t.keeps (decide (k + 1 = ts.length)) i := by
  have hn := loopCount_short (by omega) (hlen t (List.mem_of_getElem? ht))
  refine ⟨hrx, ?_⟩
  by_cases hil : i < loopCount t.len
  · exact .inl hil
  · refine .inr ⟨by omega, ?_⟩
    by_cases hk : k + 1 = ts.length
    · exact .inl (by simpa using hk)
    · right
      obtain ⟨hkl, hkt⟩ := List.getElem?_eq_some_iff.mp ht
      have hdrop : t ∈ ts.dropLast := by
        rw [← hkt, List.dropLast_eq_take]
        exact List.mem_take_iff_getElem.mpr ⟨k, by omega, rfl⟩
      have hnot := hone t hdrop (by omega)
      simpa [hrx] using hnot

theorem offset_lt_clocked (w : Slave) (channel : BitVec 8) {ts : List Transfer} (n : Nat)
    (hlen : ∀ t ∈ ts, t.len ≤ 2 ^ 31) {k : Nat} {t : Transfer} (ht : ts[k]? = some t) {i : Nat}
    (hi : i < t.len) : offset ts k + i < (clockedAll w channel ts n).length := by
  obtain ⟨hkl, hkt⟩ := List.getElem?_eq_some_iff.mp ht
  have hsum : ((ts.take (k + 1)).map Transfer.moved).sum ≤ (ts.map Transfer.moved).sum :=
    List.Sublist.sum_le_sum ((List.take_sublist _ _).map _) (by simp)
  rw [List.take_succ_eq_append_getElem hkl, List.map_append, List.sum_append, hkt,
    offset_moved k hlen] at hsum
  have hmt := t.moved_eq_iff.mpr (hlen t (List.mem_of_getElem? ht))
  simp only [List.map_cons, List.map_nil, List.sum_cons, List.sum_nil] at hsum
  rw [clockedAll_length]
  omega

/-! A message and the queue. -/

section Message

variable (w : Slave) (apbClock : Nat)

theorem runMessage_done (shutdown : Bool) (m : SpiMessage) (b : Bus) :
    (runMessage w apbClock shutdown m b).1 =
      let r := walkTransfers w apbClock shutdown m.spi m.transfers true 0 b
      ⟨r.status, r.actualLength, r.rxs, r.bus.xchgs.drop b.xchgs.length⟩ := by
  simp only [runMessage]
  split <;> rfl

theorem run_completed {m : SpiMessage} (b : Bus) (h : ∀ t ∈ m.transfers, t.Buffered) :
    (runMessage w apbClock false m b).1.xchgs =
        clockedAll w m.spi.chipSelect m.transfers b.xchgs.length ∧
      (runMessage w apbClock false m b).1.rxs = storedAll w m.transfers b.xchgs.length := by
  obtain ⟨hx, hr⟩ := walk_spec w apbClock m.spi h true 0 b
  rw [runMessage_done]
  exact ⟨by simp [hx], hr⟩

theorem run_shutdown (m : SpiMessage) (b : Bus) :
    (runMessage w apbClock true m b).1.xchgs = [] := by
  have hx : (walkTransfers w apbClock true m.spi m.transfers true 0 b).bus = b := by
    cases m.transfers <;> simp [walkTransfers]
  simp [runMessage_done, hx]

variable {w apbClock}

/-- A message that moves no byte. -/
theorem exact_of_empty {shutdown : Bool} {m : SpiMessage} {b : Bus}
    (hb : ∀ t ∈ m.transfers, t.Buffered) (hz : ∀ t ∈ m.transfers, t.len = 0) :
    MessageExact m.transfers (runMessage w apbClock shutdown m b).1 := by
  have hnone : (runMessage w apbClock shutdown m b).1.xchgs = [] := by
    cases shutdown with
    | true => exact run_shutdown w apbClock m b
    | false =>
      rw [(run_completed w apbClock b hb).1]
      apply List.eq_nil_of_length_eq_zero
      rw [clockedAll_length]
      refine List.sum_eq_zero fun n hn => ?_
      obtain ⟨t, ht, rfl⟩ := List.mem_map.mp hn
      simp [Transfer.moved, hz t ht]
  have hbytes : m.transfers.flatMap Transfer.bytes = [] := by
    apply List.eq_nil_of_length_eq_zero
    rw [flatMap_bytes_length]
    refine List.sum_eq_zero fun n hn => ?_
    obtain ⟨t, ht, rfl⟩ := List.mem_map.mp hn
    exact hz t ht
  refine ⟨by rw [hnone, hbytes]; rfl, fun k x hx => by simp [hnone] at hx, ?_⟩
  intro k t ht _ i hi
  have := hz t (List.mem_of_getElem? ht)
  omega

theorem exact_of_served {shutdown : Bool} {m : SpiMessage} {b : Bus}
    (hb : ∀ t ∈ m.transfers, t.Buffered) (h : Served shutdown m.transfers) :
    MessageExact m.transfers (runMessage w apbClock shutdown m b).1 := by
  rcases h with hz | ⟨rfl, hlen, hlast, hone⟩
  · exact exact_of_empty hb hz
  · obtain ⟨hx, hr⟩ := run_completed w apbClock b hb
    refine ⟨by rw [hx]; exact clockedAll_out w _ _ hlen, ?_, ?_⟩
    · intro k x hk
      rw [hx] at hk ⊢
      exact clockedAll_eof_iff w m.spi.chipSelect hlast hk
    · intro k t ht hrx i hi
      have hkeep := keeps_of_served hlen hone ht hrx hi
      have hlt := offset_lt_clocked w m.spi.chipSelect b.xchgs.length hlen ht hi
      have hst := storedAll_at w b.xchgs.length ht
      refine ⟨_, _, by rw [hr]; exact hst, by rw [hx]; exact List.getElem?_eq_getElem hlt, ?_⟩
      have hinn := clockedAll_inn w m.spi.chipSelect (List.getElem?_eq_getElem hlt)
      rw [if_pos ⟨by omega, hkeep⟩, offset_moved k hlen, hinn, Nat.add_assoc]

theorem served_of_exact {shutdown : Bool} {m : SpiMessage} {b : Bus}
    (hb : ∀ t ∈ m.transfers, t.Buffered)
    (h : MessageExact m.transfers (runMessage w apbClock shutdown m b).1) :
    Served shutdown m.transfers := by
  by_cases hz : ∀ t ∈ m.transfers, t.len = 0
  · exact .inl hz
  · right
    have hlen : (runMessage w apbClock shutdown m b).1.xchgs.length =
        (m.transfers.map Transfer.len).sum := by
      rw [← flatMap_bytes_length, ← h.out, List.length_map]
    have hpos : 0 < (m.transfers.map Transfer.len).sum := by
      by_contra h0
      refine hz fun t ht => ?_
      have hle := List.single_le_sum (by simp) _ (List.mem_map_of_mem (f := Transfer.len) ht)
      omega
    cases shutdown with
    | true =>
      rw [run_shutdown] at hlen
      simp only [List.length_nil] at hlen
      omega
    | false =>
      obtain ⟨hx, hr⟩ := run_completed w apbClock b hb
      have hall : ∀ t ∈ m.transfers, t.len ≤ 2 ^ 31 := by
        apply lens_of_moved
        rw [← hlen, hx, clockedAll_length]
      refine ⟨rfl, hall, ?_, ?_⟩
      · by_contra hno
        have hquiet := clockedAll_quiet w m.spi.chipSelect m.transfers b.xchgs.length
          fun l hl => by
            by_contra hl0
            exact hno ⟨l, hl, by omega⟩
        rw [← hx] at hquiet
        have hlt : (runMessage w apbClock false m b).1.xchgs.length - 1 <
            (runMessage w apbClock false m b).1.xchgs.length := by omega
        have hget := List.getElem?_eq_getElem hlt
        have hflag := (h.eof _ _ hget).mpr (by omega)
        rw [hquiet _ (List.getElem_mem hlt)] at hflag
        simp at hflag
      · rintro t ht hlt ⟨htx, hrx⟩
        -- the last byte of such a transfer is exchanged and not stored
        rw [List.dropLast_eq_take] at ht
        obtain ⟨k, hk, hkt⟩ := List.mem_take_iff_getElem.mp ht
        have hget : m.transfers[k]? = some t := List.getElem?_eq_some_iff.mpr ⟨by omega, hkt⟩
        obtain ⟨rx, x, hrxs, _, hsome⟩ := h.received k t hget hrx (t.len - 1) (by omega)
        rw [hr, storedAll_at w _ hget] at hrxs
        have hn := loopCount_short hlt (hall t (List.mem_of_getElem? hget))
        have hkeep : ¬t.keeps (decide (k + 1 = m.transfers.length)) (t.len - 1) := by
          rintro ⟨_, hlt' | ⟨_, hl | hl⟩⟩
          · omega
          · have := of_decide_eq_true hl
            omega
          · simp [htx] at hl
        obtain rfl := Option.some.inj hrxs
        simp [hkeep] at hsome

/-- Every message of a queue is run on the bus the messages before it left. -/
theorem work_completed (w : Slave) (apbClock : Nat) (shutdown : Bool) {queue : List SpiMessage}
    {i : Nat} {m : SpiMessage} (b : Bus) (h : queue[i]? = some m) :
    ∃ b', (bitbangWork w apbClock shutdown queue b).1[i]? =
      some (runMessage w apbClock shutdown m b').1 := by
  induction queue generalizing i b with
  | nil => simp at h
  | cons q queue ih =>
    cases i with
    | zero =>
      obtain rfl : q = m := by simpa using h
      exact ⟨b, rfl⟩
    | succ i =>
      exact ih (runMessage w apbClock shutdown q b).2 (by simpa using h)

end Message

/-- `bitbang_work` completes every message it is given, and does what the message asks
exactly when it is `Served`. -/
theorem queued_message_exact_iff (w : Slave) (apbClock : Nat) (shutdown : Bool)
    (queue : List SpiMessage) (b : Bus) (i : Nat) (m : SpiMessage) (hm : queue[i]? = some m)
    (hb : ∀ t ∈ m.transfers, t.Buffered) :
    ∃ c, (bitbangWork w apbClock shutdown queue b).1[i]? = some c ∧
      (MessageExact m.transfers c ↔ Served shutdown m.transfers) := by
  obtain ⟨b', hc⟩ := work_completed w apbClock shutdown b hm
  exact ⟨_, hc, served_of_exact hb, exact_of_served hb⟩

def idleBus : Bus := ⟨0, 0, 0, []⟩

def flashDevice : SpiDevice := ⟨1, false, false, false, 25000000⟩

def writeEnable : SpiMessage := ⟨flashDevice, [⟨some fun _ => 0x06, false, 1, false, by decide⟩]⟩

/-- A command of one byte and an answer of three. -/
def readIdentification : SpiMessage :=
  ⟨flashDevice, [⟨some fun _ => 0x9f, false, 1, false, by decide⟩,
    ⟨none, true, 3, false, by decide⟩]⟩

theorem readIdentification_exact :
    ∃ c, (bitbangWork ⟨fun _ => 0, fun _ => 0xc2⟩ 0 false [readIdentification] idleBus).1[0]? =
      some c ∧ MessageExact readIdentification.transfers c := by
  have hb : ∀ t ∈ readIdentification.transfers, t.Buffered := by
    intro t ht
    rcases List.mem_pair.mp ht with rfl | rfl
    · exact .inl rfl
    · exact .inr (.inl rfl)
  have hs : Served false readIdentification.transfers := by
    refine .inr ⟨rfl, ?_, ⟨_, rfl, by decide⟩, ?_⟩
    · intro t ht
      rcases List.mem_pair.mp ht with rfl | rfl <;> decide
    · intro t ht _
      obtain rfl := List.mem_singleton.mp ht
      decide
  obtain ⟨c, hc, hiff⟩ := queued_message_exact_iff ⟨fun _ => 0, fun _ => 0xc2⟩ 0 false
    [readIdentification] idleBus 0 readIdentification rfl hb
  exact ⟨c, hc, hiff.mpr hs⟩

/-- A byte sent and received at once, and then a byte sent. -/
def duplexThenSend : SpiMessage :=
  ⟨flashDevice, [⟨some fun _ => 0x05, true, 1, false, by decide⟩,
    ⟨some fun _ => 0x06, false, 1, false, by decide⟩]⟩

/-- The byte that comes in with the first is lost. -/
theorem duplexThenSend_loses_byte :
    (∀ t ∈ duplexThenSend.transfers, t.Buffered) ∧
      ∃ c, (bitbangWork ⟨fun _ => 0, fun _ => 0xc2⟩ 0 false [duplexThenSend] idleBus).1[0]? =
        some c ∧ ¬MessageExact duplexThenSend.transfers c := by
  refine ⟨?_, _, rfl, ?_⟩
  · intro t ht
    rcases List.mem_pair.mp ht with rfl | rfl
    · exact .inl rfl
    · exact .inl rfl
  · intro h
    obtain ⟨rx, x, hrx, _, hsome⟩ := h.received 0 _ rfl rfl 0 (by decide)
    obtain rfl := Option.some.inj hrx
    rw [if_pos (by decide), txrx_rx, if_neg (by decide)] at hsome
    simp at hsome

end SnakeOs.Spi
