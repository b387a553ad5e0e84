import SnakeOs.Flash.Mtdblock

namespace SnakeOs.Flash
open Arch Lib
open Lib.Client (issued answers run_bind run_pure issued_bind issued_pure)

variable {α β : Type}

/-- A program that uses one partition on the array: its result, what it leaves in the
window, and that it touches nothing else and calls the driver as it can serve. -/
structure Acts (g : Bank) (p : Part) (q : Client Call Reply α) (m : Nor 8) (a : α)
    (w : Nor 8) : Prop where
  result : (q.run (Call.onArray g) m).1 = a
  window : p.window (q.run (Call.onArray g) m).2 = w
  outside : ∀ x, x < p.offset.toNat ∨ p.offset.toNat + p.size.toNat ≤ x →
    (q.run (Call.onArray g) m).2 x = m x
  regular : ∀ c ∈ q.issued (Call.onArray g) m, c.Regular g

theorem Acts.done {g : Bank} {p : Part} {m w : Nor 8} (a : α) (h : p.window m = w) :
    Acts g p (.done a) m a w := ⟨rfl, h, fun _ _ => rfl, by simp [issued]⟩

theorem Acts.handle {g : Bank} {p : Part} {m w : Nor 8} {call : Call} {r : Reply}
    (hp : p.Sound g) (hc : p.Proper g call) (hr : p.onWindow g (p.window m) call = (r, w)) :
    Acts g p (p.handle call) m r w := by
  have h := served hp hc m
  rw [← (Prod.mk.inj hr).1, ← (Prod.mk.inj hr).2]
  exact ⟨h.reply, h.window, h.outside, h.regular⟩

theorem Acts.bind {g : Bank} {p : Part} {q : Client Call Reply α} {f : α → Client Call Reply β}
    {m w w' : Nor 8} {a : α} {b : β} (h : Acts g p q m a w)
    (hf : Acts g p (f a) (q.run (Call.onArray g) m).2 b w') : Acts g p (q >>= f) m b w' := by
  have hf' := hf
  rw [← h.result] at hf'
  refine ⟨?_, ?_, fun x hx => ?_, fun c hc => ?_⟩
  · rw [run_bind]
    exact hf'.result
  · rw [run_bind]
    exact hf'.window
  · rw [run_bind, hf'.outside x hx, h.outside x hx]
  · rw [issued_bind, List.mem_append] at hc
    rcases hc with hc | hc
    · exact h.regular c hc
    · exact hf'.regular c hc

/-- A partition that a block device can be kept on: whole sectors below the end of the
flash, of which it may write all. -/
structure Part.Blocks (g : Bank) (p : Part) : Prop extends p.Sound g where
  writeable : p.Writeable
  whole : p.size.toNat % spiFlashSectorSize = 0
  below : p.offset.toNat + p.size.toNat < g.size
  erasesize : p.erasesize.toNat = spiFlashSectorSize
  cached : p.flags &&& mtdCapRam ≠ mtdCapRam

theorem int64_ofNat {n : Nat} (h : n < 2 ^ 62) : (Int64.ofNat n).toInt = n := by
  rw [← Int64.ofInt_eq_ofNat, Int64.toInt_ofInt_of_le (by omega) (by omega)]

theorem uint32_ofNat {n : Nat} (h : n < 2 ^ 32) : (UInt32.ofNat n).toNat = n :=
  UInt32.toNat_ofNat_of_lt' h

/-- A read inside the partition. -/
theorem read_acts {g : Bank} {p : Part} (hp : p.Blocks g) {pos len : Nat} (hl : 0 < len)
    (hfit : pos + len ≤ p.size.toNat) (m : Nor 8) :
    Acts g p (p.handle (.read (Int64.ofNat pos) (UInt32.ofNat len))) m
      ⟨0, some len, ((p.window m).read pos len).map BitVec.toNat, none⟩ (p.window m) := by
  have hbank := (bank_size g).1
  have hin := hp.inside
  have hpos := int64_ofNat (n := pos) (by omega)
  have hlen := uint32_ofNat (n := len) (by omega)
  refine .handle hp.toSound ?_ ?_
  · simp only [Part.Proper, hpos, hlen]
    omega
  · have hmin : min len (p.size.toNat - pos) = len := by omega
    simp only [Part.onWindow, hpos, hlen, Int.toNat_natCast, hmin]
    rw [if_neg (by omega)]

/-- The buffer of a read holds the bytes of its range. -/
theorem buffer_read (m : Nor 8) {pos len i : Nat} {n : Option Nat} (h : i < len) :
    (⟨0, n, (m.read pos len).map BitVec.toNat, none⟩ : Reply).buffer i = m (pos + i) := by
  simp only [Reply.buffer, Nor.read, List.map_map, List.getD_eq_getElem?_getD, List.getElem?_map,
    List.getElem?_range h, Option.map_some, Option.getD_some, Function.comp_apply,
    BitVec.ofNat_toNat, BitVec.setWidth_eq]

/-- A whole sector erased and written anew. -/
theorem eraseWrite_acts {g : Bank} {p : Part} (hp : p.Blocks g) {pos : Nat} (buf : Nat → U8)
    (hpos : pos % 65536 = 0) (hfit : pos + 65536 ≤ p.size.toNat) (m : Nor 8) :
    Acts g p (eraseWrite p pos 65536 buf) m 0 ((p.window m).overwrite pos 65536 buf) := by
  have hbank := (bank_size g).1
  have hsector := (bank_sectors g).1
  have hin := hp.inside
  have hbelow := hp.below
  have hu := uint32_ofNat (n := pos) (by omega)
  have hl := uint32_ofNat (n := 65536) (by decide)
  have hi := int64_ofNat (n := pos) (by omega)
  have herase : Acts g p (p.handle (.erase (UInt32.ofNat pos) (UInt32.ofNat 65536))) m
      ⟨0, none, [], some .done⟩ ((p.window m).erase pos 65536) := by
    refine .handle hp.toSound (.inr ?_) ?_
    · rw [hu, hl]
      exact ⟨hfit, .inr ⟨by omega, .inl (by decide)⟩⟩
    · simp only [Part.onWindow, if_neg (not_not_intro hp.writeable), hu, hl]
      rw [if_neg (by omega), Bank.eraseSize, hsector, if_neg (by omega)]
  have hwrite : ∀ m', p.window m' = (p.window m).erase pos 65536 →
      Acts g p (p.handle (.write (Int64.ofNat pos) (UInt32.ofNat 65536) fun i => (buf i).toNat)) m'
        ⟨0, some 65536, [], none⟩ ((p.window m).overwrite pos 65536 buf) := by
    intro m' hm'
    refine .handle hp.toSound ?_ ?_
    · simp only [Part.Proper, hi, hl, InPages, Int.toNat_natCast]
      omega
    · have hmin : min 65536 (p.size.toNat - pos) = 65536 := by omega
      simp only [Part.onWindow, if_neg (not_not_intro hp.writeable), hi, hl, Int.toNat_natCast, hmin]
      rw [if_neg (by decide), hm', ← Nor.erase_program]
      simp
  have hsecond := hwrite _ herase.window
  refine herase.bind ?_
  simp only [ne_eq, not_true_eq_false, ↓reduceIte]
  exact hsecond.bind (.done 0 hsecond.window)

/-- The partition as the users of the block device see it: the cached sector over the
flash. -/
def Mtdblk.view (b : Mtdblk) (m : Nor 8) : Nor 8 :=
  if b.cacheState = .empty then m else m.overwrite b.cacheOffset b.cacheSize b.cacheData

/-- A cache that is not empty holds a sector of the partition, and a clean one holds it as
the flash does. -/
structure Cached (p : Part) (b : Mtdblk) (m : Nor 8) : Prop where
  size : b.cacheSize = 65536
  sector : b.cacheState ≠ .empty →
    b.cacheOffset % 65536 = 0 ∧ b.cacheOffset + 65536 ≤ p.size.toNat
  clean : b.cacheState ≠ .dirty → b.view m = m

/-- A program of the cache succeeds and leaves the device open as often as it was, with the
contents `v`. -/
def Settles (g : Bank) (p : Part) (q : Client Call Reply (Int × Mtdblk)) (m : Nor 8)
    (b : Mtdblk) (v : Nor 8) (also : Mtdblk → Prop) : Prop :=
  ∃ b' w, Acts g p q m (0, b') w ∧ Cached p b' w ∧ b'.view w = v ∧ b'.count = b.count ∧ also b'

/-- A program of the cache and, as it succeeds, another one. -/
theorem Settles.bind {g : Bank} {p : Part} {q : Client Call Reply (Int × Mtdblk)}
    {f : Mtdblk → Client Call Reply (Int × Mtdblk)} {m v v' : Nor 8} {b : Mtdblk}
    {also also' : Mtdblk → Prop} (h : Settles g p q m b v also)
    (hf : ∀ b' m', Cached p b' (p.window m') → b'.view (p.window m') = v → also b' →
      Settles g p (f b') m' b' v' also') :
    Settles g p (checked q f) m b v' also' := by
  obtain ⟨b₁, w₁, hact, hc, hv, hn, hd⟩ := h
  rw [← hact.window] at hc hv
  obtain ⟨b₂, w₂, hact', hc', hv', hn', hd'⟩ := hf b₁ _ hc hv hd
  exact ⟨b₂, w₂, hact.bind hact', hc', hv', hn'.trans hn, hd'⟩

theorem writeCachedData_settles {g : Bank} {p : Part} (hp : p.Blocks g) {b : Mtdblk} {m : Nor 8}
    (h : Cached p b (p.window m)) :
    Settles g p (writeCachedData p b) m b (b.view (p.window m)) fun b' => b'.cacheState ≠ .dirty := by
  unfold writeCachedData
  by_cases hd : b.cacheState = .dirty
  · rw [if_neg (not_not_intro hd)]
    obtain ⟨hpos, hfit⟩ := h.sector (by rw [hd]; decide)
    have hview : b.view (p.window m) =
        (p.window m).overwrite b.cacheOffset 65536 b.cacheData := by
      rw [Mtdblk.view, if_neg (by rw [hd]; decide), h.size]
    have hact := eraseWrite_acts hp b.cacheData hpos hfit m
    rw [← h.size] at hact
    refine ⟨{ b with cacheState := .empty },
      (p.window m).overwrite b.cacheOffset b.cacheSize b.cacheData, hact.bind (.done _ hact.window),
      ⟨h.size, fun hne => absurd rfl hne, fun _ => rfl⟩, ?_, rfl, by simp⟩
    rw [hview, h.size]
    rfl
  · rw [if_pos hd]
    exact ⟨b, p.window m, .done _ rfl, h, rfl, rfl, hd⟩

theorem fillCache_settles {g : Bank} {p : Part} (hp : p.Blocks g) {b : Mtdblk} {m : Nor 8}
    {sectStart : Nat} (h : Cached p b (p.window m))
    (hd : b.cacheState ≠ .dirty ∨ b.cacheOffset = sectStart)
    (hpos : sectStart % 65536 = 0) (hfit : sectStart + 65536 ≤ p.size.toNat) :
    Settles g p (fillCache p sectStart b.cacheSize b) m b (b.view (p.window m)) fun b' =>
      b'.cacheState ≠ .empty ∧ b'.cacheOffset = sectStart := by
  unfold fillCache
  by_cases hfill : b.cacheState = .empty ∨ b.cacheOffset ≠ sectStart
  · rw [if_pos hfill, h.size]
    have hflash : b.view (p.window m) = p.window m := by
      apply h.clean
      rcases hfill with he | he
      · rw [he]
        decide
      · exact hd.resolve_right he
    let r : Reply := ⟨0, some 65536, ((p.window m).read sectStart 65536).map BitVec.toNat, none⟩
    have hview : (p.window m).overwrite sectStart 65536 r.buffer = p.window m :=
      (Nor.overwrite_congr _ fun i hi => buffer_read _ hi).trans (Nor.overwrite_self _ _ _)
    have hread := read_acts hp (by decide) hfit m
    refine ⟨⟨b.count, r.buffer, sectStart, 65536, .clean⟩, p.window m, hread.bind ?_,
      ⟨rfl, fun _ => ⟨hpos, hfit⟩, fun _ => hview⟩, ?_, rfl, by simp, rfl⟩
    · simp only [ne_eq, not_true_eq_false, ↓reduceIte]
      exact .done _ hread.window
    · rw [hflash]
      exact hview
  · rw [if_neg hfill]
    rw [not_or, not_not] at hfill
    exact ⟨b, p.window m, .done _ rfl, h, rfl, rfl, hfill⟩

theorem evict_settles {g : Bank} {p : Part} (hp : p.Blocks g) {b : Mtdblk} {m : Nor 8}
    (sectStart : Nat) (h : Cached p b (p.window m)) :
    Settles g p (evict p sectStart b) m b (b.view (p.window m)) fun b' =>
      b'.cacheState ≠ .dirty ∨ b'.cacheOffset = sectStart := by
  unfold evict
  by_cases he : b.cacheState = .dirty ∧ b.cacheOffset ≠ sectStart
  · rw [if_pos he]
    obtain ⟨b', w, hact, hc, hv, hn, hd⟩ := writeCachedData_settles hp h
    exact ⟨b', w, hact, hc, hv, hn, .inl hd⟩
  · rw [if_neg he]
    rw [not_and_or, not_not] at he
    exact ⟨b, p.window m, .done _ rfl, h, rfl, rfl, he⟩

/-- A partial sector: the sector of another place is written back first, and what is then
cached is the sector of this one. -/
theorem writeCached_settles {g : Bank} {p : Part} (hp : p.Blocks g) {b : Mtdblk} {m : Nor 8}
    {sectStart offset size : Nat} (buf : Nat → U8) (h : Cached p b (p.window m))
    (hpos : sectStart % 65536 = 0) (hfit : sectStart + 65536 ≤ p.size.toNat)
    (hin : offset + size ≤ 65536) :
    Settles g p (writeCached p sectStart offset size buf b) m b
      ((b.view (p.window m)).overwrite (sectStart + offset) size buf) fun _ => True := by
  refine (evict_settles hp sectStart h).bind fun b₁ m₁ hc₁ hv₁ hd₁ => ?_
  refine (fillCache_settles hp hc₁ hd₁ hpos hfit).bind fun b₂ m₂ hc₂ hv₂ hd₂ => ?_
  obtain ⟨hne, hoff⟩ := hd₂
  refine ⟨_, p.window m₂, .done _ rfl, ⟨hc₂.size, fun _ => ?_, fun hd => absurd rfl hd⟩, ?_, rfl,
    trivial⟩
  · exact hc₂.sector hne
  · rw [← hv₁, ← hv₂, Mtdblk.view, if_neg (by simp), Mtdblk.view, if_neg hne, hc₂.size, ← hoff]
    exact Nor.overwrite_inside _ _ _ hin

/-- The sector of the flash around a block of 512 bytes. -/
theorem block_sector {pos size : Nat} (hpos : pos % 512 = 0) (hfit : pos + 512 ≤ size)
    (hsize : size % 65536 = 0) :
    pos / 65536 * 65536 + 65536 ≤ size ∧ pos / 65536 * 65536 + (pos - pos / 65536 * 65536) = pos ∧
      min (65536 - (pos - pos / 65536 * 65536)) 512 = 512 := by
  omega

/-- A request of part of one sector is one pass. -/
theorem doCachedWrite_once (p : Part) {b : Mtdblk} {pos len : Nat} (buf : Nat → U8)
    (hl : 0 < len) (hlt : len < b.cacheSize)
    (hin : min (b.cacheSize - (pos - pos / b.cacheSize * b.cacheSize)) len = len) :
    doCachedWrite p pos len buf b = checked (writeCached p (pos / b.cacheSize * b.cacheSize)
      (pos - pos / b.cacheSize * b.cacheSize) len buf b) fun b => .done (0, b) := by
  obtain ⟨n, rfl⟩ : ∃ n, len = n + 1 := ⟨len - 1, by omega⟩
  have hrest : cachedWriteLoop p n (pos + (n + 1)) (n + 1 - (n + 1)) (fun i => buf (n + 1 + i)) =
      fun b => .done (0, b) := by
    rw [Nat.sub_self]
    funext b
    cases n <;> rfl
  rw [doCachedWrite, if_neg (by omega), cachedWriteLoop, if_neg (by omega)]
  simp only [hin]
  rw [if_neg (by omega), hrest]

theorem doCachedWrite_settles {g : Bank} {p : Part} (hp : p.Blocks g) {b : Mtdblk} {m : Nor 8}
    {pos : Nat} (buf : Nat → U8) (h : Cached p b (p.window m)) (hpos : pos % 512 = 0)
    (hfit : pos + 512 ≤ p.size.toNat) :
    Settles g p (doCachedWrite p pos 512 buf b) m b
      ((b.view (p.window m)).overwrite pos 512 buf) fun _ => True := by
  obtain ⟨hend, hplace, hwhole⟩ := block_sector hpos hfit hp.whole
  have hone := writeCached_settles hp buf h (Nat.mul_mod_left (pos / 65536) 65536) hend
    (show pos - pos / 65536 * 65536 + 512 ≤ 65536 by omega)
  rw [hplace] at hone
  rw [doCachedWrite_once p buf (by decide) (by rw [h.size]; decide) (by rw [h.size, hwhole]), h.size]
  exact hone.bind fun b' m' hc' hv' _ => ⟨b', p.window m', .done _ rfl, hc', hv', rfl, trivial⟩

theorem blockPos_eq {block : UInt32} {n size : Nat} (hsize : size < 2 ^ 32)
    (hfit : (block.toNat + (n + 1)) * 512 ≤ size) :
    blockPos block = block.toNat * 512 ∧ (block + 1).toNat = block.toNat + 1 := by
  refine ⟨Nat.mod_eq_of_lt (by omega), ?_⟩
  rw [UInt32.toNat_add, UInt32.toNat_one, Nat.mod_eq_of_lt (by omega)]

/-- A WRITE request, by induction on its sectors. -/
theorem writeSectors_acts {g : Bank} {p : Part} (hp : p.Blocks g) (n : Nat) {block : UInt32}
    {buf : Nat → U8} {b : Mtdblk} {m : Nor 8} (h : Cached p b (p.window m))
    (hfit : (block.toNat + n) * 512 ≤ p.size.toNat) :
    ∃ b' w, Acts g p (writeSectors p n block buf b) m (true, b') w ∧ Cached p b' w ∧
      b'.view w = (b.view (p.window m)).overwrite (block.toNat * 512) (n * 512) buf ∧
      b'.count = b.count := by
  induction n generalizing block buf b m with
  | zero => exact ⟨b, p.window m, .done _ rfl, h, by simp, rfl⟩
  | succ n ih =>
    obtain ⟨hpos, hnext⟩ := blockPos_eq p.size.toNat_lt hfit
    have hfirst : block.toNat * 512 + 512 ≤ p.size.toNat := by omega
    obtain ⟨b₁, w₁, hact, hc, hv, hn, _⟩ := doCachedWrite_settles hp buf h (by omega) hfirst
    rw [← hact.window] at hc hv
    have hrest : ((block + 1).toNat + n) * 512 ≤ p.size.toNat := by
      rw [hnext, Nat.add_assoc, Nat.add_comm 1 n]
      exact hfit
    obtain ⟨b₂, w₂, hact', hc', hv', hn'⟩ := @ih (block + 1) (fun i => buf (512 + i)) b₁ _ hc hrest
    refine ⟨b₂, w₂, ?_, hc', ?_, hn'.trans hn⟩
    · rw [writeSectors, hpos]
      exact hact.bind hact'
    · have hsplit : (n + 1) * 512 = 512 + n * 512 := by omega
      rw [hv', hv, hnext, Nat.add_mul, Nat.one_mul, hsplit, Nor.overwrite_append]

/-- A read of part of one sector: from the cache where it holds that sector. -/
theorem doCachedRead_once (p : Part) {b : Mtdblk} {pos len : Nat} (hl : 0 < len)
    (hsize : b.cacheSize ≠ 0)
    (hin : min (b.cacheSize - (pos - pos / b.cacheSize * b.cacheSize)) len = len) :
    doCachedRead p b pos len =
      if b.cacheState ≠ .empty ∧ b.cacheOffset = pos / b.cacheSize * b.cacheSize then
        .done (0, (List.range len).map fun i =>
          (b.cacheData (pos - pos / b.cacheSize * b.cacheSize + i)).toNat)
      else p.handle (.read (Int64.ofNat pos) (UInt32.ofNat len)) >>= fun r =>
        if r.ret ≠ 0 then .done (r.ret, r.bytes)
        else if r.retlen ≠ some len then .done (eio, r.bytes) else .done (0, r.bytes) := by
  obtain ⟨n, rfl⟩ : ∃ n, len = n + 1 := ⟨len - 1, by omega⟩
  have hrest : cachedReadLoop p b n (pos + (n + 1)) (n + 1 - (n + 1)) = .done (0, []) := by
    rw [Nat.sub_self]
    cases n <;> rfl
  rw [doCachedRead, if_neg hsize, cachedReadLoop, if_neg (by omega)]
  simp only [hin, hrest]
  split
  · exact congrArg (fun bytes => Client.done (0, bytes)) (List.append_nil _)
  · refine congrArg (p.handle _ >>= ·) (funext fun r => ?_)
    split
    · rfl
    · split
      · rfl
      · exact congrArg (fun bytes => Client.done (0, bytes)) (List.append_nil _)

theorem doCachedRead_acts {g : Bank} {p : Part} (hp : p.Blocks g) {b : Mtdblk} {m : Nor 8}
    {pos : Nat} (h : Cached p b (p.window m)) (hpos : pos % 512 = 0)
    (hfit : pos + 512 ≤ p.size.toNat) :
    Acts g p (doCachedRead p b pos 512) m
      (0, ((b.view (p.window m)).read pos 512).map BitVec.toNat) (p.window m) := by
  obtain ⟨hend, hplace, hwhole⟩ := block_sector hpos hfit hp.whole
  rw [doCachedRead_once p (by decide) (by rw [h.size]; decide) (by rw [h.size, hwhole]), h.size]
  by_cases hhit : b.cacheState ≠ .empty ∧ b.cacheOffset = pos / 65536 * 65536
  · obtain ⟨hne, hoff⟩ := hhit
    have hbytes : (List.range 512).map (fun i => (b.cacheData (pos - pos / 65536 * 65536 + i)).toNat) =
        ((b.view (p.window m)).read pos 512).map BitVec.toNat := by
      rw [Nor.read, List.map_map]
      refine List.map_congr_left fun i hi => ?_
      rw [List.mem_range] at hi
      have hi' : pos + i - b.cacheOffset = pos - pos / 65536 * 65536 + i := by omega
      rw [Function.comp_apply, Mtdblk.view, if_neg hne, h.size, Nor.overwrite, if_pos (by omega), hi']
    rw [if_pos ⟨hne, hoff⟩, hbytes]
    exact .done _ rfl
  · rw [if_neg hhit]
    have hsame : (b.view (p.window m)).read pos 512 = (p.window m).read pos 512 := by
      by_cases he : b.cacheState = .empty
      · rw [Mtdblk.view, if_pos he]
      · have hoff : b.cacheOffset ≠ pos / 65536 * 65536 := fun hoff => hhit ⟨he, hoff⟩
        have hsect := (h.sector he).1
        refine Nor.read_congr fun a hlow hhigh => ?_
        rw [Mtdblk.view, if_neg he, h.size, Nor.overwrite, if_neg (by omega)]
    have hread := read_acts hp (by decide) hfit m
    rw [hsame]
    refine hread.bind ?_
    simp only [ne_eq, not_true_eq_false, ↓reduceIte]
    exact .done _ hread.window

/-- A READ request, by induction on its sectors. -/
theorem readSectors_acts {g : Bank} {p : Part} (hp : p.Blocks g) (n : Nat) {block : UInt32}
    {b : Mtdblk} {m v : Nor 8} (h : Cached p b (p.window m)) (hv : b.view (p.window m) = v)
    (hfit : (block.toNat + n) * 512 ≤ p.size.toNat) :
    Acts g p (readSectors p b n block) m
      (true, (v.read (block.toNat * 512) (n * 512)).map BitVec.toNat) (p.window m) := by
  induction n generalizing block m with
  | zero => exact .done _ rfl
  | succ n ih =>
    obtain ⟨hpos, hnext⟩ := blockPos_eq p.size.toNat_lt hfit
    have hfirst : block.toNat * 512 + 512 ≤ p.size.toNat := by omega
    have hact := doCachedRead_acts hp h (Nat.mul_mod_left block.toNat 512) hfirst
    have hrest : ((block + 1).toNat + n) * 512 ≤ p.size.toNat := by
      rw [hnext, Nat.add_assoc, Nat.add_comm 1 n]
      exact hfit
    rw [hv] at hact
    rw [← hact.window] at h hv
    have hact' := @ih (block + 1) _ h hv hrest
    have hsplit : (n + 1) * 512 = 512 + n * 512 := by omega
    rw [hnext, Nat.add_mul, Nat.one_mul] at hact'
    rw [hact.window] at hact'
    rw [readSectors, hpos, hsplit, Nor.read_append, List.map_append]
    exact hact.bind (hact'.bind (.done _ hact'.window))

end SnakeOs.Flash
