import Mathlib.Data.List.GetD
import SnakeOs.Firmware.Gate
import SnakeOs.Lib.Calc

namespace SnakeOs.Firmware
open Lib

def configSize : Nat := 0x20000
def kernelSize : Nat := 0xF0000

/-- Only compared with the size of `output/jffs2.img`. -/
def rootfsSize : Nat := 0x2A0000

def zeros (n : Nat) : Bytes := List.replicate n 0

/-- `dd if=in of=out conv=notrunc` -/
def ddOver (input out : Bytes) : Bytes := input ++ out.drop input.length

/-- `dd if=/dev/zero of=file count=1 bs=16 seek=blocks`: cut or extended there, then a block. -/
def ddZero (blocks : Nat) (file : Bytes) : Bytes :=
  file.take (blocks * 16) ++ zeros (blocks * 16 - file.length) ++ zeros 16

/-- `md5sum file | cut -d ' ' -f 1` -/
def md5Line (md5 : Bytes → Fin 16 → UInt8) (name : Line) (file : Bytes) : Line :=
  cutField ' ' 1 ((List.ofFn (md5 file)).flatMap hex2 ++ [' ', ' '] ++ name)

/-- `tr '[a-z]' '[A-z]'` of one character -/
def upperCase : Char → Char :=
  trChar ('[' :: charRange 'a' 'z' ++ [']']) ('[' :: charRange 'A' 'z' ++ [']'])

/-- The line that `dc` gets for a checksum. -/
def dcLine (sum : Line) : Line :=
  let upper := (sedPairs sum).map upperCase
  let blanks := upper.flatMap fun c => if c = ' ' then [' ', 'p', ' '] else [c]
  ['1', '6', 'i', ' '] ++ (blanks ++ [' ', 'p'])

/-- The checksum turned into binary, one block of it. -/
def md5tail (sum : Line) : Bytes :=
  dd 16 0 (some 1) (((dc (dcLine sum)).flatMap (·.splitOn ' ')).flatMap awkChar)

/-- From the concatenation to the image: zeroes to its end, the checksum over them, the empty
tail stripped and the checksum in its place. -/
def summed (md5 : Bytes → Fin 16 → UInt8) (name : Line) (blocks : Nat) (file : Bytes) : Bytes :=
  let result := ddZero blocks file
  dd 16 0 (some blocks) result ++ md5tail (md5Line md5 name result)

/-- The images of a release. -/
structure Release where
  fromOriginal : Bytes
  fromSnake : Bytes

/-- `mk_snakeos_image.sh` from the padding of the kernel on. `jffs2` is the file whose size
is checked, `rootfs` the one that is shipped. -/
def mkSnakeosImage (md5 : Bytes → Fin 16 → UInt8) (mke2fs : Bytes → Bytes)
    (original snake : Line) (boot kernelIn jffs2 rootfs : Bytes) : Option Release :=
  if kernelIn.length ≤ kernelSize then
    let kernel := ddOver kernelIn (zeros kernelSize)
    if jffs2.length ≤ rootfsSize then
      let config := mke2fs (zeros configSize)
      some ⟨summed md5 original 258047 (boot ++ config ++ kernel ++ rootfs),
        summed md5 snake 241663 (config ++ kernel ++ rootfs)⟩
    else none
  else none

theorem upperCase_hex : ∀ n : Fin 16, dcDigit (upperCase (Nat.digitChar n)) = some n.val ∧
    upperCase (Nat.digitChar n) ≠ ' ' := by
  decide +kernel

/-- What `dc` gets for a byte: two digits and a `p`. -/
def dcByte (b : UInt8) : Line :=
  [upperCase (Nat.digitChar (b.toNat / 16)), upperCase (Nat.digitChar (b.toNat % 16)),
    ' ', 'p', ' ']

theorem dcLine_digest (bs : Bytes) :
    dcLine (digest bs) = ['1', '6', 'i', ' '] ++ (bs.flatMap dcByte ++ [' ', 'p']) := by
  have hblank : upperCase ' ' = ' ' := by decide +kernel
  have hpairs := sedPairs_flatMap hex2 (fun b => ⟨_, _, rfl⟩) bs
  rw [dcLine, digest, hpairs]
  simp only [List.map_flatMap, List.flatMap_assoc]
  congr 2
  refine List.flatMap_congr fun b _ => ?_
  have hlt := b.toNat_lt
  have hhigh := (upperCase_hex ⟨b.toNat / 16, by omega⟩).2
  have hlow := (upperCase_hex ⟨b.toNat % 16, by omega⟩).2
  simp only at hhigh hlow
  simp only [hex2, List.cons_append, List.nil_append, List.map_cons, List.map_nil,
    List.flatMap_cons, List.flatMap_nil, List.append_nil]
  rw [if_neg hhigh, if_neg hlow, if_pos hblank]
  rfl

theorem dcByte_run (b : UInt8) (stack out : List Nat) :
    Dc.run ⟨none, 16, stack, out⟩ (dcByte b) =
      ⟨none, 16, b.toNat :: stack, out ++ [b.toNat]⟩ := by
  have hlt := b.toNat_lt
  have hb : b.toNat / 16 * 16 + b.toNat % 16 = b.toNat := by omega
  rw [dcByte, Dc.run_number (upperCase_hex ⟨b.toNat / 16, by omega⟩).1
    (upperCase_hex ⟨b.toNat % 16, by omega⟩).1, hb]

/-- Every byte is printed once, by induction on the checksum. -/
theorem dc_bytes (bs : Bytes) (stack out : List Nat) : ∃ stack',
    Dc.run ⟨none, 16, stack, out⟩ (bs.flatMap dcByte) =
      ⟨none, 16, stack', out ++ bs.map (·.toNat)⟩ := by
  induction bs generalizing stack out with
  | nil => exact ⟨stack, by rw [List.map_nil, List.append_nil]; rfl⟩
  | cons b bs ih =>
    obtain ⟨stack', hrun⟩ := ih (b.toNat :: stack) (out ++ [b.toNat])
    refine ⟨stack', ?_⟩
    rw [List.flatMap_cons, Dc.run_append, dcByte_run, hrun, List.map_cons, List.append_assoc]
    rfl

/-- The checksum comes through the pipeline. The script's last `p` prints the last byte once
more, which `dd` cuts. -/
theorem md5tail_digest {bs : Bytes} (h : bs.length = 16) : md5tail (digest bs) = bs := by
  obtain ⟨stack, hrun⟩ := dc_bytes bs [] []
  have hradix : Dc.run Dc.init ['1', '6', 'i', ' '] = ⟨none, 16, [], []⟩ := by decide +kernel
  obtain ⟨more, hout⟩ : ∃ more, (Dc.init.run (dcLine (digest bs))).out = bs.map (·.toNat) ++ more := by
    rw [dcLine_digest, Dc.run_append, Dc.run_append, hradix, hrun]
    cases stack with
    | nil => exact ⟨[], by rw [List.nil_append, List.append_nil]; rfl⟩
    | cons n stack => exact ⟨[n], by rw [List.nil_append]; rfl⟩
  have hsplit : ∀ n, (Nat.toDigits 10 n).splitOn ' ' = [Nat.toDigits 10 n] := fun n => by
    apply List.splitOn_eq_singleton
    intro hc
    have hdigit : Char.isDigit ' ' = true := Nat.isDigit_of_mem_toDigits (by decide) (by decide) hc
    exact absurd hdigit (by decide)
  have hbytes : (bs.map (·.toNat)).flatMap (fun n => awkChar (Nat.toDigits 10 n)) = bs := by
    rw [List.flatMap_map]
    simp only [awkChar_toDigits]
    exact List.flatMap_singleton' bs
  have hlines : ∀ ns : List Nat, ((ns.map (Nat.toDigits 10)).flatMap (·.splitOn ' ')).flatMap awkChar =
      ns.flatMap fun n => awkChar (Nat.toDigits 10 n) := fun ns => by
    simp only [List.flatMap_map, hsplit, List.flatMap_assoc, List.flatMap_singleton]
  rw [md5tail, dc, hout, hlines, List.flatMap_append, hbytes, dd, Nat.zero_mul, List.drop_zero,
    Nat.one_mul, List.take_left' h]

/-- The first `n` bytes of a file, zeroes behind its end. -/
def body (n : Nat) (file : Bytes) : Bytes := file.take n ++ zeros (n - file.length)

theorem body_length (n : Nat) (file : Bytes) : (body n file).length = n := by
  simp only [body, zeros, List.length_append, List.length_take, List.length_replicate]
  omega

theorem body_getD {n i : Nat} (file : Bytes) (h : i < n) : (body n file).getD i 0 = file.getD i 0 := by
  by_cases hi : i < file.length
  · have htake : i < (file.take n).length := by
      rw [List.length_take]
      omega
    rw [body, List.getD_append _ _ _ _ htake]
    simp only [List.getD_eq_getElem?_getD, List.getElem?_take_of_lt h]
  · have hskip : (file.take n).length ≤ i := by
      rw [List.length_take]
      omega
    rw [body, List.getD_append_right _ _ _ _ hskip, List.getD_eq_default file 0 (by omega)]
    exact List.getElem?_getD_replicate_default_eq ..

/-- The checksum of a body with its empty tail. -/
def sumOf (md5 : Bytes → Fin 16 → UInt8) (bs : Bytes) : Bytes := List.ofFn (md5 (bs ++ zeros 16))

theorem summed_eq (md5 : Bytes → Fin 16 → UInt8) (name : Line) (blocks : Nat) (file : Bytes) :
    summed md5 name blocks file =
      body (blocks * 16) file ++ sumOf md5 (body (blocks * 16) file) := by
  have hline : ∀ input, md5Line md5 name input = digest (List.ofFn (md5 input)) := fun input => by
    rw [md5Line, List.append_assoc]
    exact cutField_first (' ' :: name) (digest_no_space (List.ofFn (md5 input)))
  have hresult : ddZero blocks file = body (blocks * 16) file ++ zeros 16 := rfl
  have hbody : dd 16 0 (some blocks) (ddZero blocks file) = body (blocks * 16) file := by
    rw [hresult, dd, Nat.zero_mul, List.drop_zero, List.take_left' (body_length _ _)]
  rw [summed, hbody, hline, md5tail_digest (List.length_ofFn ..), hresult]
  rfl

theorem summed_signed (md5 : Bytes → Fin 16 → UInt8) (bs : Bytes) :
    Signed md5 (bs ++ sumOf md5 bs) :=
  (signed_append md5 (List.length_ofFn ..)).mpr rfl

/-- The flash with a release on it: in INITRD the root file system is cut or padded so that
the checksum has the last 16 bytes. -/
def installed (config kernelIn rootfs sum : Bytes) (flash : Flash) : Flash := fun a =>
  if a < cfgOffset then flash a
  else if a < kernelOffset then config.getD (a - cfgOffset) 0
  else if a < initrdOffset then kernelIn.getD (a - kernelOffset) 0
  else if a < flashEnd - 16 then rootfs.getD (a - initrdOffset) 0
  else if a < flashEnd then sum.getD (a - (flashEnd - 16)) 0
  else flash a

theorem installed_outside {config kernelIn rootfs sum : Bytes} {flash : Flash} {a : Nat}
    (h : ¬ (cfgOffset ≤ a ∧ a < flashEnd)) : installed config kernelIn rootfs sum flash a = flash a := by
  rw [cfgOffset, flashEnd] at h
  rw [installed, cfgOffset, kernelOffset, initrdOffset, flashEnd]
  by_cases hlow : a < 0x40000
  · rw [if_pos hlow]
  · rw [if_neg hlow, if_neg (by omega), if_neg (by omega), if_neg (by omega), if_neg (by omega)]

theorem installed_inside {config kernelIn rootfs sum : Bytes} {flash : Flash} {a : Nat}
    (h : cfgOffset ≤ a ∧ a < flashEnd) : installed config kernelIn rootfs sum flash a =
      if a < flashEnd - 16 then
        if a - cfgOffset < 0x20000 then config.getD (a - cfgOffset) 0
        else if a - cfgOffset < 0x110000 then kernelIn.getD (a - cfgOffset - 0x20000) 0
        else rootfs.getD (a - cfgOffset - 0x110000) 0
      else sum.getD (a - (flashEnd - 16)) 0 := by
  rw [cfgOffset, flashEnd] at h
  rw [installed, cfgOffset, kernelOffset, initrdOffset, flashEnd, if_neg (by omega)]
  by_cases h1 : a < 0x60000
  · rw [if_pos h1, if_pos (by omega), if_pos (by omega)]
  · rw [if_neg h1]
    by_cases h2 : a < 0x150000
    · have hk : a - 0x40000 - 0x20000 = a - 0x60000 := by omega
      rw [if_pos h2, if_pos (by omega), if_neg (by omega), if_pos (by omega), hk]
    · rw [if_neg h2]
      by_cases h3 : a < 0x3f0000 - 16
      · have hr : a - 0x40000 - 0x110000 = a - 0x150000 := by omega
        rw [if_pos h3, if_pos h3, if_neg (by omega), if_neg (by omega), hr]
      · rw [if_neg h3, if_neg h3, if_pos h.2]

theorem ddOver_zeros {input : Bytes} (h : input.length ≤ kernelSize) :
    (ddOver input (zeros kernelSize)).length = kernelSize ∧
      ∀ i, (ddOver input (zeros kernelSize)).getD i 0 = input.getD i 0 := by
  constructor
  · simp only [ddOver, zeros, List.length_append, List.length_drop, List.length_replicate]
    omega
  · intro i
    by_cases hi : i < input.length
    · exact List.getD_append _ _ _ _ hi
    · rw [ddOver, List.getD_append_right _ _ _ _ (Nat.le_of_not_lt hi), zeros, List.drop_replicate,
        List.getD_eq_default input 0 (Nat.le_of_not_lt hi)]
      exact List.getElem?_getD_replicate_default_eq ..

/-- What the parts put one behind the other have at the places of the partitions. -/
theorem parts_getD (boot rootfs : Bytes) {config kernel : Bytes} (hc : config.length = 0x20000)
    (hk : kernel.length = 0xF0000) (j : Nat) :
    (boot ++ config ++ kernel ++ rootfs).getD (boot.length + j) 0 =
      if j < 0x20000 then config.getD j 0
      else if j < 0x110000 then kernel.getD (j - 0x20000) 0
      else rootfs.getD (j - 0x110000) 0 := by
  rw [List.append_assoc, List.append_assoc, List.getD_append_right _ _ _ _ (Nat.le_add_right ..),
    Nat.add_sub_cancel_left]
  by_cases h1 : j < 0x20000
  · rw [if_pos h1, List.getD_append _ _ _ _ (by omega)]
  · rw [if_neg h1, List.getD_append_right _ _ _ _ (by omega), hc]
    by_cases h2 : j < 0x110000
    · rw [if_pos h2, List.getD_append _ _ _ _ (by omega)]
    · have hj : j - 0x20000 - 0xF0000 = j - 0x110000 := by omega
      rw [if_neg h2, List.getD_append_right _ _ _ _ (by omega), hk, hj]

/-- Either image, `boot` being what stands before the configuration. -/
theorem summed_installs (md5 : Bytes → Fin 16 → UInt8) (name : Line) (blocks : Nat)
    (boot rootfs : Bytes) {config kernelIn : Bytes}
    (hsize : blocks * 16 + 16 = fullSize ∨ blocks * 16 + 16 = incrementalSize)
    (hblocks : boot.length + 0x3B0000 = blocks * 16 + 16) (hc : config.length = configSize)
    (hk : kernelIn.length ≤ kernelSize) (flash : Flash) :
    let image := summed md5 name blocks
      (boot ++ config ++ ddOver kernelIn (zeros kernelSize) ++ rootfs)
    firmwareCgi md5 image ≠ [] ∧
      flashAfter md5 image flash =
        installed config kernelIn rootfs (sumOf md5 (image.take (blocks * 16))) flash := by
  intro image
  obtain ⟨hklen, hkernel⟩ := ddOver_zeros hk
  have himage : image = _ := summed_eq md5 name blocks _
  have hbody := body_length (blocks * 16)
    (boot ++ config ++ ddOver kernelIn (zeros kernelSize) ++ rootfs)
  have hlen : image.length = blocks * 16 + 16 := by
    rw [himage, List.length_append, hbody, sumOf, List.length_ofFn]
  have htake : image.take (blocks * 16) = body (blocks * 16)
      (boot ++ config ++ ddOver kernelIn (zeros kernelSize) ++ rootfs) := by
    rw [himage, List.take_left' hbody]
  have hsigned : Signed md5 image := himage ▸ summed_signed md5 _
  rw [← hlen] at hsize
  refine ⟨?_, ?_⟩
  · rw [firmwareCgi_eq, if_pos ⟨hsize, hsigned⟩, segmentsOf]
    split <;> exact List.cons_ne_nil _ _
  · funext a
    have hbase : image.length - incrementalSize = boot.length := by
      rw [hlen, ← hblocks]
      exact Nat.add_sub_cancel ..
    rw [flashAfter_signed md5 hsize hsigned, hbase, htake]
    by_cases ha : cfgOffset ≤ a ∧ a < flashEnd
    · have hparts := parts_getD boot rootfs hc hklen (a - cfgOffset)
      rw [if_pos ha, installed_inside ha, himage]
      rw [cfgOffset, flashEnd] at ha
      by_cases hbefore : a < flashEnd - 16
      · have hin : boot.length + (a - cfgOffset) < blocks * 16 := by
          rw [cfgOffset]
          rw [flashEnd] at hbefore
          omega
        rw [if_pos hbefore, List.getD_append _ _ _ _ (by rw [hbody]; exact hin), body_getD _ hin,
          hparts, hkernel]
      · have hplace : boot.length + (a - cfgOffset) = blocks * 16 + (a - (flashEnd - 16)) := by
          rw [cfgOffset, flashEnd]
          rw [flashEnd] at hbefore
          omega
        rw [if_neg hbefore, hplace, List.getD_append_right _ _ _ _ (by rw [hbody]; omega), hbody,
          Nat.add_sub_cancel_left]
    · rw [if_neg ha, installed_outside ha]

/-- Whatever the script builds, the upload handler takes, and both images of a release leave
the same configuration, kernel and root file system on the flash, the root file system as far
as the checksum in its last 16 bytes leaves it. -/
theorem images_install (md5 : Bytes → Fin 16 → UInt8) (mke2fs : Bytes → Bytes)
    (original snake : Line) (boot kernelIn jffs2 rootfs : Bytes) (r : Release) (flash : Flash)
    (hfs : ∀ disk, (mke2fs disk).length = disk.length) (hboot : boot.length = 0x40000)
    (h : mkSnakeosImage md5 mke2fs original snake boot kernelIn jffs2 rootfs = some r) :
    (firmwareCgi md5 r.fromOriginal ≠ [] ∧ flashAfter md5 r.fromOriginal flash =
      installed (mke2fs (zeros configSize)) kernelIn rootfs
        (sumOf md5 (r.fromOriginal.take (258047 * 16))) flash) ∧
    firmwareCgi md5 r.fromSnake ≠ [] ∧ flashAfter md5 r.fromSnake flash =
      installed (mke2fs (zeros configSize)) kernelIn rootfs
        (sumOf md5 (r.fromSnake.take (241663 * 16))) flash := by
  have hc : (mke2fs (zeros configSize)).length = configSize := by
    rw [hfs, zeros, List.length_replicate]
  unfold mkSnakeosImage at h
  split at h
  · rename_i hk
    split at h
    · obtain rfl := Option.some.inj h
      have hfull := summed_installs md5 original 258047 boot rootfs (.inl rfl)
        (by rw [hboot]) hc hk flash
      have hincremental := summed_installs md5 snake 241663 [] rootfs (.inr rfl) rfl hc hk
        flash
      exact ⟨hfull, hincremental⟩
    · exact absurd h (Option.some_ne_none r).symm
  · exact absurd h (Option.some_ne_none r).symm

/-- Of a file system only the magic of its superblock. -/
def ext2Magic (disk : Bytes) : Bytes := (disk.set 1080 0x53).set 1081 0xef

/-- The parts of a release with a kernel and a root file system of a few bytes. -/
def smallParts (boot : Bytes) : Bytes :=
  boot ++ ext2Magic (zeros configSize) ++ ddOver [1, 2, 3] (zeros kernelSize) ++ [4]

/-- What `md5sum` has for the two images of that release. -/
def smallMd5 (input : Bytes) (i : Fin 16) : UInt8 :=
  let sum : Bytes :=
    if input = body (258047 * 16) (smallParts (zeros 0x40000)) ++ zeros 16 then
      [0x10, 0xfc, 0xe9, 0x97, 0xdf, 0x26, 0xdc, 0x4d, 0x71, 0x05, 0x96, 0x5e, 0xea, 0xc4,
      0x8f, 0xc4]
    else if input = body (241663 * 16) (smallParts []) ++ zeros 16 then
      [0x4e, 0x90, 0xf1, 0x2f, 0x08, 0x5f, 0xb8, 0x21, 0xe9, 0x97, 0x6f, 0xa9, 0x45, 0xfe,
      0xfb, 0x2f]
    else zeros 16
  sum.getD i 0

/-- A release of a few bytes. -/
theorem images_install_small :
    let r : Release := ⟨summed smallMd5 "snakeos-from-original.bin".toList 258047
      (smallParts (zeros 0x40000)), summed smallMd5 "snakeos-from-snake.bin".toList 241663
        (smallParts [])⟩
    (firmwareCgi smallMd5 r.fromOriginal ≠ [] ∧ flashAfter smallMd5 r.fromOriginal (fun _ => 0xFF) =
      installed (ext2Magic (zeros configSize)) [1, 2, 3] [4]
        (sumOf smallMd5 (r.fromOriginal.take (258047 * 16))) fun _ => 0xFF) ∧
    firmwareCgi smallMd5 r.fromSnake ≠ [] ∧ flashAfter smallMd5 r.fromSnake (fun _ => 0xFF) =
      installed (ext2Magic (zeros configSize)) [1, 2, 3] [4]
        (sumOf smallMd5 (r.fromSnake.take (241663 * 16))) fun _ => 0xFF := by
  have hsize : ∀ disk, (ext2Magic disk).length = disk.length := by simp [ext2Magic]
  exact images_install smallMd5 ext2Magic "snakeos-from-original.bin".toList
    "snakeos-from-snake.bin".toList (zeros 0x40000) [1, 2, 3] [] [4] _ _ hsize
    (List.length_replicate ..) rfl

end SnakeOs.Firmware
