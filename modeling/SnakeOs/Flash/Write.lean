import Mathlib.Data.List.Chain
import SnakeOs.Arch.Memory
import SnakeOs.Flash.Erase

namespace SnakeOs.Flash
open Arch

/-- What the chip programs on a PAGE PROGRAM frame: bytes that run over the end of
the page go on at its start, and of more than a page the last 256 are kept. -/
def frameBytes (f : Frame) : List (Nat × Nat) :=
  let data := (f.map Xchg.tx).drop 4
  (data.zipIdx.drop (data.length - spiFlashPageSize)).map fun p =>
    (frameAddress f / spiFlashPageSize * spiFlashPageSize +
      (frameAddress f + p.2) % spiFlashPageSize, p.1)

/-- All bytes programmed by the frames, with their addresses, in order. -/
def programmed (fs : List Frame) : List (Nat × Nat) :=
  (fs.filter fun f => opcode f = some ppOpcode).flatMap frameBytes

/-- Programming only clears bits. -/
def store (mem : Nat → U8) (p : Nat × Nat) : Nat → U8 :=
  Function.update mem p.1 (mem p.1 &&& BitVec.ofNat 8 p.2)

/-- What a frame does to the flash array. -/
def frameEffect (mem : Nat → U8) (f : Frame) : Nat → U8 :=
  if opcode f = some ppOpcode then (frameBytes f).foldl store mem
  else if opcode f = some seOpcode then fun a =>
    if a / spiFlashSectorSize = frameAddress f / spiFlashSectorSize then 0xFF else mem a
  else mem

def contents (mem : Nat → U8) (fs : List Frame) : Nat → U8 := fs.foldl frameEffect mem

/-- The frames sent between `s` and `t`. -/
def sent (s t : Spi) : List Frame := t.frames.drop s.frames.length

/-- The chip accepts every write enable: the status read behind it shows WEL. -/
def Accepting (fs : List Frame) : Prop :=
  fs.IsChain fun w r => opcode w = some wrenOpcode → welRead r

theorem bank_size (g : Bank) : g.size ≤ 2 ^ 23 ∧ g.size ≤ g.info.pages * g.info.pageSize := by
  obtain ⟨info, m, d, hp⟩ := g
  unfold spiflashProbe at hp
  simp only [Bank.size] at hp ⊢
  repeat' split at hp
  all_goals first | contradiction | (cases hp; decide)

/-- Data that stays inside its page is programmed where the frame says. -/
theorem frameBytes_eq {f : Frame} {b address len : Nat} {data : Nat → Nat}
    (hf : f.map Xchg.tx = b :: addressBytes address ++ (List.range len).map data)
    (ha : address < 2 ^ 24) (hp : address % 256 + len ≤ 256) :
    frameBytes f = (List.range len).map fun i => (address + i, data i) := by
  have haddr : frameAddress f = address := by
    rw [frameAddress_eq _ hf, Nat.mod_eq_of_lt ha]
  have hdata : (f.map Xchg.tx).drop 4 = (List.range len).map data := by
    rw [hf]
    rfl
  simp only [frameBytes, haddr, hdata, List.length_map, List.length_range, spiFlashPageSize]
  rw [Nat.sub_eq_zero_of_le (by omega), List.drop_zero]
  refine List.ext_getElem (by simp) fun i hi _ => ?_
  simp only [List.length_map, List.length_zipIdx, List.length_range] at hi
  simp only [List.getElem_map, List.getElem_zipIdx, List.getElem_range, Nat.zero_add,
    Prod.mk.injEq, and_true]
  omega

theorem programmed_append (fs gs : List Frame) :
    programmed (fs ++ gs) = programmed fs ++ programmed gs := by
  simp [programmed]

/-- Frames that erase nothing change the array by the bytes they program. -/
theorem contents_programmed {fs : List Frame} (h : ∀ f ∈ fs, opcode f ≠ some seOpcode)
    (mem : Nat → U8) : contents mem fs = (programmed fs).foldl store mem := by
  induction fs generalizing mem with
  | nil => rfl
  | cons f fs ih =>
    have hf := h f List.mem_cons_self
    have htail := ih (fun q hq => h q (List.mem_cons_of_mem f hq)) (frameEffect mem f)
    rw [contents, List.foldl_cons]
    refine htail.trans ?_
    by_cases hp : opcode f = some ppOpcode
    · simp [programmed, frameEffect, hp, List.foldl_append]
    · simp [programmed, frameEffect, hp, hf]

/-- Storing consecutive bytes clears bits in their range only. -/
theorem store_range (mem : Nat → U8) (dst n : Nat) (buf : Nat → U8) :
    ((List.range n).map fun i => (dst + i, (buf i).toNat)).foldl store mem =
      fun a => if dst ≤ a ∧ a < dst + n then mem a &&& buf (a - dst) else mem a := by
  induction n with
  | zero =>
    funext a
    rw [if_neg (by omega)]
    rfl
  | succ n ih =>
    rw [List.range_succ, List.map_append, List.foldl_append, ih]
    funext a
    simp only [List.map_cons, List.map_nil, List.foldl_cons, List.foldl_nil, store,
      Function.update_apply, BitVec.ofNat_toNat, BitVec.setWidth_eq]
    by_cases ha : a = dst + n
    · subst a
      simp
    · rw [if_neg ha]
      have hiff : dst ≤ a ∧ a < dst + (n + 1) ↔ dst ≤ a ∧ a < dst + n := by omega
      simp only [hiff]

/-- A write enable programs and erases nothing, and a chip that accepts it lets the
driver go on. -/
theorem setWriteEnable_quiet {g : Bank} {s : Spi} (c : Chip) (h : Resting g s) :
    ∃ fs, (setWriteEnable c s).2.frames = s.frames ++ fs ∧ programmed fs = [] ∧
      (∀ f ∈ fs, opcode f ≠ some seOpcode) ∧
      (Accepting fs → (setWriteEnable c s).1 = true) := by
  obtain ⟨polls, w, r, hf, hpolls, hw, hr, hok⟩ := setWriteEnable_frames c h
  have hnot : ∀ f ∈ polls ++ [w, r], opcode f = some rdsrOpcode ∨ opcode f = some wrenOpcode := by
    intro f hm
    rcases List.mem_append.mp hm with hm | hm
    · exact .inl (hpolls f hm)
    · rcases List.mem_pair.mp hm with rfl | rfl
      · exact .inr hw
      · exact .inl hr
  refine ⟨polls ++ [w, r], hf, ?_, ?_, ?_⟩
  · have hnil : (polls ++ [w, r]).filter (fun f => opcode f = some ppOpcode) = [] := by
      refine List.filter_eq_nil_iff.mpr fun f hm => ?_
      rcases hnot f hm with he | he <;> simp [he, rdsrOpcode, wrenOpcode, ppOpcode]
    rw [programmed, hnil]
    rfl
  · intro f hm
    rcases hnot f hm with he | he <;> simp [he, rdsrOpcode, wrenOpcode, seOpcode]
  · intro hacc
    have hlast := List.IsChain.right_of_append hacc
    exact hok.mpr (List.isChain_pair.mp hlast hw)

/-- One chunk: rejected at once when it crosses a page, and otherwise programmed
exactly when the call reports success, which it does on a chip that accepts the write
enable. -/
theorem pageProgram_outcome {g : Bank} {s : Spi} (c : Chip) (address : Nat) (buf : Nat → Nat)
    (len : Nat) (h : Resting g s) (hl : 0 < len) (hlen : len ≤ 256)
    (hfit : address + len ≤ g.size) :
    ∃ fs, (pageProgramDataBytes g c address buf len s).2.frames = s.frames ++ fs ∧
      (∀ f ∈ fs, opcode f ≠ some seOpcode) ∧
      programmed fs = (if (pageProgramDataBytes g c address buf len s).1 then
        (List.range len).map fun i => (address + i, buf i % 256) else []) ∧
      (address % 256 + len ≤ 256 → Accepting fs →
        (pageProgramDataBytes g c address buf len s).1 = true) ∧
      (256 < address % 256 + len → pageProgramDataBytes g c address buf len s = (false, s)) := by
  obtain ⟨hbig, hpages⟩ := bank_size g
  have hpred : predU32 len = len - 1 := if_neg (by omega)
  have hmod : (address + predU32 len) % 2 ^ 32 = address + len - 1 := by
    rw [hpred]
    omega
  unfold pageProgramDataBytes
  rw [if_neg (by rw [bank_pageSize]; omega), if_neg (by omega), hmod, bank_pageSize]
  by_cases hp : address % 256 + len ≤ 256
  · obtain ⟨fs, hfs, hnone, hse, hacc⟩ := setWriteEnable_quiet c h
    have hr := (setWriteEnable_enabled c h).1
    rw [if_neg (by omega)]
    cases hok : (setWriteEnable c s).1 with
    | false =>
      rw [hok] at hacc
      exact ⟨fs, by simpa [hok] using hfs, hse, by simpa [hok] using hnone,
        fun _ ha => absurd (hacc ha) (by simp), fun hc => absurd hp (by omega)⟩
    | true =>
      have ho := ((Opened.start hr.cur).shift c ppOpcode).address c address
      obtain ⟨f, hf, _⟩ := (ho.programLoop c buf (predU32 len) 0).finish c (buf (predU32 len))
      have hop : opcode f = some ppOpcode := hf.leads
      have hbytes : f.map Xchg.tx = ppOpcode % 256 :: addressBytes address ++
          (List.range len).map fun i => buf i % 256 := by
        obtain ⟨k, rfl⟩ : ∃ k, len = k + 1 := ⟨len - 1, by omega⟩
        rw [hf.sent, hpred, List.range_succ]
        simp [List.range_eq_range']
      have hdata := frameBytes_eq hbytes (by omega) hp
      simp only [hok, Bool.not_true, Bool.false_eq_true, ↓reduceIte]
      refine ⟨fs ++ [f], ?_, ?_, ?_, fun _ _ => trivial, fun hc => absurd hp (by omega)⟩
      · rw [hf.frames, hfs, List.append_assoc]
      · intro q hq
        rcases List.mem_append.mp hq with hq | hq
        · exact hse q hq
        · rw [List.mem_singleton.mp hq, hop]
          decide
      · rw [programmed_append, hnone]
        simp [programmed, hop, hdata]
  · rw [if_pos (by omega)]
    exact ⟨[], by simp, by simp, by simp [programmed], fun hc => absurd hc hp, fun _ => rfl⟩

theorem toU32_natCast {n : Nat} (h : n < 2 ^ 32) : toU32 n = n := by
  unfold toU32
  omega

/-- The chunk of a pass is not empty, fits a page and is the rest or a whole page. -/
theorem progSize_spec (g : Bank) {left : Nat} (h : 0 < left) :
    0 < progSize g left ∧ progSize g left ≤ 256 ∧ progSize g left ≤ left ∧
      (progSize g left = left ∨ progSize g left = 256) := by
  unfold progSize
  rw [bank_pageSize]
  split <;> omega

/-- From here on every chunk stays inside its page. -/
def InPages (start left : Nat) : Prop := start % 256 = 0 ∨ start % 256 + left ≤ 256

theorem InPages.chunk {g : Bank} {start left : Nat} (h : InPages start left) (hl : 0 < left) :
    start % 256 + progSize g left ≤ 256 ∧
      InPages (start + progSize g left) (left - progSize g left) := by
  obtain ⟨_, hle, hleft, hor⟩ := progSize_spec g hl
  rcases h with h | h
  · refine ⟨by omega, ?_⟩
    rcases hor with hor | hor
    · right
      omega
    · left
      omega
  · refine ⟨by omega, .inr ?_⟩
    omega

/-- What a pass of the chunk loop has done when it stops: `k` more bytes are programmed,
all that were left exactly when it returns 0. -/
structure Progress (s : Spi) (dst : Nat) (buf : Nat → Nat) (left total : Nat) (r : WriteResult)
    (fs : List Frame) (k : Nat) : Prop where
  frames : r.spi.frames = s.frames ++ fs
  erased : ∀ f ∈ fs, opcode f ≠ some seOpcode
  retlen : r.retlen = some (total + k)
  bytes : programmed fs = (List.range' total k).map fun i => (dst + i, buf i % 256)
  ret : r.ret = 0 ∧ k = left ∨ r.ret = eio ∧ k < left
  success : InPages (dst + total) left → Accepting fs → r.ret = 0

theorem Progress.none (s : Spi) (dst : Nat) (buf : Nat → Nat) (total : Nat) :
    Progress s dst buf 0 total ⟨0, some total, s⟩ [] 0 :=
  ⟨by simp, by simp, rfl, rfl, .inl ⟨rfl, rfl⟩, fun _ _ => rfl⟩

/-- The loop by induction on its passes; a chunk that fails ends it with what the chunks
before have programmed. -/
theorem writeLoop_progress {g : Bank} (c : Chip) (dst : Nat) (buf : Nat → Nat) (n : Nat)
    (left total : Nat) {s : Spi} (h : Resting g s) (hn : left ≤ n)
    (hfit : dst + total + left ≤ g.size) :
    ∃ fs k, Progress s dst buf left total (writeLoop g c dst buf n left total s) fs k := by
  induction n generalizing left total s with
  | zero =>
    obtain rfl : left = 0 := by omega
    exact ⟨[], 0, .none s dst buf total⟩
  | succ n ih =>
    unfold writeLoop
    by_cases hleft : left = 0
    · subst left
      exact ⟨[], 0, .none s dst buf total⟩
    · rw [if_neg hleft]
      obtain ⟨hpos, hpage, hle, _⟩ := progSize_spec g (Nat.pos_of_ne_zero hleft)
      have hbig := (bank_size g).1
      have haddr : toU32 ((dst : Int) + (total : Int)) = dst + total := by
        rw [← Int.natCast_add]
        exact toU32_natCast (by omega)
      rw [haddr]
      obtain ⟨fs, hfs, hse, hbytes, hok, hbad⟩ := pageProgram_outcome c (dst + total)
        (fun ii => buf (total + ii)) (progSize g left) h hpos hpage (by omega)
      have hr := pageProgram_resting c (dst + total) (fun ii => buf (total + ii))
        (progSize g left) h (by omega) (by omega)
      cases hres : (pageProgramDataBytes g c (dst + total) (fun ii => buf (total + ii))
        (progSize g left) s).1 with
      | false =>
        rw [hres] at hbytes hok
        refine ⟨fs, 0, by simpa [hres] using hfs, hse, by simp [hres], by simpa using hbytes,
          .inr ⟨by simp [hres], by omega⟩, fun hp hacc => ?_⟩
        exact absurd (hok (hp.chunk (by omega)).1 hacc) (by simp)
      | true =>
        rw [hres] at hbytes
        simp only [hres, ↓reduceIte] at hbytes ⊢
        obtain ⟨gs, k, hp⟩ := ih (left - progSize g left) (total + progSize g left) hr (by omega)
          (by omega)
        refine ⟨fs ++ gs, progSize g left + k, ?_, ?_, ?_, ?_, ?_, fun hin hacc => ?_⟩
        · rw [hp.frames, hfs, List.append_assoc]
        · intro f hf
          rcases List.mem_append.mp hf with hf | hf
          · exact hse f hf
          · exact hp.erased f hf
        · rw [hp.retlen, Nat.add_assoc]
        · have hchunk : programmed fs =
              (List.range' total (progSize g left)).map fun i => (dst + i, buf i % 256) := by
            rw [hbytes, List.range'_eq_map_range, List.map_map]
            simp [Function.comp_def, Nat.add_assoc]
          rw [programmed_append, hchunk, hp.bytes, ← List.map_append, List.range'_append_1]
        · rcases hp.ret with hret | hret
          · exact .inl ⟨hret.1, by omega⟩
          · exact .inr ⟨hret.1, by omega⟩
        · refine hp.success ?_ (List.IsChain.right_of_append hacc)
          rw [← Nat.add_assoc]
          exact (hin.chunk (by omega)).2

/-- The data bytes of the PAGE PROGRAM frames, as they went over the bus. -/
def payload (fs : List Frame) : List Nat :=
  (fs.filter fun f => opcode f = some ppOpcode).flatMap fun f => (f.map Xchg.tx).drop 4

/-- Frames of at most a page are programmed whole. -/
theorem payload_programmed {fs : List Frame}
    (h : ∀ f ∈ fs, opcode f = some ppOpcode → f.length - 4 ≤ spiFlashPageSize) :
    payload fs = (programmed fs).map Prod.snd := by
  rw [payload, programmed, List.map_flatMap]
  refine List.flatMap_congr fun f hf => ?_
  obtain ⟨hm, hop⟩ := List.mem_filter.mp hf
  have hlen : ((f.map Xchg.tx).drop 4).length ≤ spiFlashPageSize := by
    simpa using h f hm (by simpa using hop)
  rw [frameBytes, Nat.sub_eq_zero_of_le hlen, List.drop_zero, List.map_map]
  exact List.ext_getElem (by simp) fun i hi _ => by simp

/-- A request inside the flash goes to the loop with everything left. -/
theorem spiflashWrite_eq {g : Bank} (c : Chip) {dst len : Nat} (buf : Nat → Nat) (s : Spi)
    (hl : 0 < len) (hfit : dst + len ≤ g.size) :
    spiflashWrite g c dst len buf s = writeLoop g c dst buf len len 0 s := by
  have hbig := (bank_size g).1
  have hloff : loff ((dst : Int) + (len : Int)) ≤ (g.size : Int) := by
    unfold loff
    rw [Int.bmod_eq_of_le] <;> omega
  unfold spiflashWrite
  rw [if_neg (by omega), if_neg (by omega)]

theorem spiflashWrite_progress {g : Bank} (c : Chip) {dst len : Nat} (buf : Nat → Nat) {s : Spi}
    (h : Resting g s) (hl : 0 < len) (hfit : dst + len ≤ g.size) :
    ∃ fs k, Progress s dst buf len 0 (spiflashWrite g c dst len buf s) fs k := by
  rw [spiflashWrite_eq c buf s hl hfit]
  exact writeLoop_progress c dst buf len len 0 h (Nat.le_refl len) (by omega)

theorem Progress.sent_eq {s : Spi} {dst left total k : Nat} {buf : Nat → Nat} {r : WriteResult}
    {fs : List Frame} (h : Progress s dst buf left total r fs k) : sent s r.spi = fs := by
  rw [sent, h.frames, List.drop_left]

/-- A request whose first chunk crosses a page is turned away without a frame. -/
theorem spiflashWrite_crossing {g : Bank} (c : Chip) {dst len : Nat} (buf : Nat → Nat) {s : Spi}
    (h : Resting g s) (hl : 0 < len) (hfit : dst + len ≤ g.size) (hp : ¬ InPages dst len) :
    (spiflashWrite g c dst len buf s).ret = eio ∧ (spiflashWrite g c dst len buf s).spi = s := by
  rw [spiflashWrite_eq c buf s hl hfit]
  obtain ⟨n, rfl⟩ : ∃ n, len = n + 1 := ⟨len - 1, by omega⟩
  obtain ⟨hpos, hpage, hle, hor⟩ := progSize_spec g hl
  have hbig := (bank_size g).1
  have hcross : 256 < dst % 256 + progSize g (n + 1) := by
    unfold InPages at hp
    omega
  obtain ⟨_, _, _, _, _, hbad⟩ := pageProgram_outcome c dst (fun ii => buf (0 + ii))
    (progSize g (n + 1)) h hpos hpage (by omega)
  have haddr : toU32 ((dst : Int) + ((0 : Nat) : Int)) = dst := by
    rw [← Int.natCast_add]
    exact toU32_natCast (by omega)
  unfold writeLoop
  rw [if_neg (by omega), haddr]
  simp only [hbad hcross, Bool.false_eq_true, ↓reduceIte, and_self]

/-- On a chip that accepts every write enable the request succeeds, clears the bits of
its range and leaves the rest of the flash alone. -/
def WriteMeets (g : Bank) (c : Chip) (s : Spi) (dst len : Nat) (buf : Nat → U8) : Prop :=
  let r := spiflashWrite g c dst len (fun i => (buf i).toNat) s
  Accepting (sent s r.spi) → r.ret = 0 ∧ r.retlen = some len ∧ ∀ mem a,
    contents mem (sent s r.spi) a =
      if dst ≤ a ∧ a < dst + len then mem a &&& buf (a - dst) else mem a

theorem meets_inPages {g : Bank} {c : Chip} {s : Spi} {dst len : Nat} {buf : Nat → U8}
    (h : Resting g s) (hl : 0 < len) (hfit : dst + len ≤ g.size)
    (hm : WriteMeets g c s dst len buf) : InPages dst len := by
  by_contra hp
  obtain ⟨hret, hspi⟩ := spiflashWrite_crossing c (fun i => (buf i).toNat) h hl hfit hp
  have hnone : sent s (spiflashWrite g c dst len (fun i => (buf i).toNat) s).spi = [] := by
    rw [hspi, sent, List.drop_length]
  have hzero := (hm (by rw [hnone]; exact List.IsChain.nil)).1
  rw [hret] at hzero
  exact absurd hzero (by decide)

theorem inPages_meets {g : Bank} {c : Chip} {s : Spi} {dst len : Nat} {buf : Nat → U8}
    (h : Resting g s) (hl : 0 < len) (hfit : dst + len ≤ g.size) (hp : InPages dst len) :
    WriteMeets g c s dst len buf := by
  simp only [WriteMeets]
  intro hacc
  obtain ⟨fs, k, hr⟩ := spiflashWrite_progress c (fun i => (buf i).toNat) h hl hfit
  rw [hr.sent_eq] at hacc
  have hzero := hr.success hp hacc
  have hk : k = len := by
    rcases hr.ret with hret | hret
    · exact hret.2
    · rw [hret.1] at hzero
      exact absurd hzero (by decide)
  refine ⟨hzero, by rw [hr.retlen, hk, Nat.zero_add], fun mem a => ?_⟩
  have hbytes : programmed fs = (List.range len).map fun i => (dst + i, (buf i).toNat) := by
    rw [hr.bytes, hk, ← List.range_eq_range']
    simp [Nat.mod_eq_of_lt (BitVec.isLt _)]
  rw [hr.sent_eq, contents_programmed hr.erased, hbytes, store_range]

/-- After any calls, a write does what it is asked exactly when it starts at a page or
ends inside the page it starts in. -/
theorem write_meets_iff (g : Bank) (c : Chip) (busy : Nat) (calls : List Call) (dst len : Nat)
    (buf : Nat → U8) (hl : 0 < len) (hfit : dst + len ≤ g.size) :
    WriteMeets g c (performAll g c (Spi.init busy) calls) dst len buf ↔
      dst % g.info.pageSize = 0 ∨ dst % g.info.pageSize + len ≤ g.info.pageSize := by
  have h := performAll_resting c (init_resting g busy) calls
  rw [bank_pageSize]
  exact ⟨meets_inPages h hl hfit, inPages_meets h hl hfit⟩

/-- Two whole pages and a part of a third, behind an erase of their sector. -/
theorem write_meets_iff_pages :
    WriteMeets ⟨⟨64, 0x10000, 16384, 256⟩, 0x20, 0x2016, rfl⟩ obedient
      (performAll ⟨⟨64, 0x10000, 16384, 256⟩, 0x20, 0x2016, rfl⟩ obedient (Spi.init 3)
        [.erase 0x10000 0x10000]) 0x10200 700 (fun i => BitVec.ofNat 8 i) :=
  (write_meets_iff _ obedient 3 [.erase 0x10000 0x10000] 0x10200 700 _ (by decide) (by decide)).mpr
    (by decide)

/-- A page's size of data from the middle of a page on is refused. -/
theorem write_unaligned_fails :
    ¬ WriteMeets ⟨⟨64, 0x10000, 16384, 256⟩, 0x20, 0x2016, rfl⟩ obedient (Spi.init 0) 128 256
      (fun _ => 0) := by
  intro h
  have hp := meets_inPages (init_resting _ 0) (by decide) (by decide) h
  unfold InPages at hp
  omega

/-- Whatever the chip refuses, `retlen` counts the bytes that reached it: they are the
first ones of the buffer, each programmed once at its place, and no other data byte and
no erase was sent. -/
theorem write_retlen_exact (g : Bank) (c : Chip) (busy : Nat) (calls : List Call)
    (dst len : Nat) (buf : Nat → U8) (hl : 0 < len) (hfit : dst + len ≤ g.size) :
    let s := performAll g c (Spi.init busy) calls
    let r := spiflashWrite g c dst len (fun i => (buf i).toNat) s
    (r.ret = 0 ∨ r.ret = eio) ∧ ∃ n ≤ len, r.retlen = some n ∧ (r.ret = 0 ↔ n = len) ∧
      programmed (sent s r.spi) = ((List.range n).map fun i => (dst + i, (buf i).toNat)) ∧
      payload (sent s r.spi) = ((List.range n).map fun i => (buf i).toNat) ∧
      erasedSectors (sent s r.spi) = [] := by
  intro s r
  have h : Resting g s := performAll_resting c (init_resting g busy) calls
  obtain ⟨fs, k, hr⟩ := spiflashWrite_progress c (fun i => (buf i).toNat) h hl hfit
  have hbytes : programmed fs = (List.range k).map fun i => (dst + i, (buf i).toNat) := by
    rw [hr.bytes, ← List.range_eq_range']
    simp [Nat.mod_eq_of_lt (BitVec.isLt _)]
  have hpages : ∀ f ∈ fs, opcode f = some ppOpcode → f.length - 4 ≤ spiFlashPageSize := by
    intro f hf hop
    have hall := writeLoop_resting c dst (fun i => (buf i).toNat) len len 0 h
    rw [← spiflashWrite_eq c (fun i => (buf i).toNat) s hl hfit] at hall
    have hpage := hall.protocol.pages f (by rw [hr.frames]; exact List.mem_append_right _ hf) hop
    rw [spiFlashPageSize, ← bank_pageSize g]
    exact hpage.2.1
  rw [hr.sent_eq]
  refine ⟨hr.ret.imp And.left And.left, k, ?_, by rw [hr.retlen, Nat.zero_add], ?_, hbytes, ?_, ?_⟩
  · rcases hr.ret with hret | hret <;> omega
  · rcases hr.ret with hret | hret
    · exact ⟨fun _ => hret.2, fun _ => hret.1⟩
    · refine ⟨fun hz => ?_, fun hk => by omega⟩
      rw [hret.1] at hz
      exact absurd hz (by decide)
  · rw [payload_programmed hpages, hbytes, List.map_map]
    rfl
  · refine List.filterMap_eq_nil_iff.mpr fun f hf => ?_
    rw [if_neg (hr.erased f hf)]

/-- The chip takes the first page and refuses the write enable for the rest. -/
theorem write_retlen_exact_refused :
    let s := Spi.init 2
    let c : Chip := ⟨fun _ => 1, fun k => if k < 5 then welBit else 0, fun _ => 0⟩
    let buf : Nat → U8 := fun i => BitVec.ofNat 8 i
    let r := spiflashWrite ⟨⟨64, 0x10000, 16384, 256⟩, 0x20, 0x2016, rfl⟩ c (256 : Nat) 300
      (fun i => (buf i).toNat) s
    (r.ret = eio ∧ r.retlen = some 256) ∧
      (r.ret = 0 ∨ r.ret = eio) ∧ ∃ n ≤ 300, r.retlen = some n ∧ (r.ret = 0 ↔ n = 300) ∧
        programmed (sent s r.spi) = ((List.range n).map fun i => (256 + i, (buf i).toNat)) ∧
        payload (sent s r.spi) = ((List.range n).map fun i => (buf i).toNat) ∧
        erasedSectors (sent s r.spi) = [] :=
  ⟨by decide +kernel, write_retlen_exact _ _ 2 [] 256 300 _ (by decide) (by decide)⟩

end SnakeOs.Flash
