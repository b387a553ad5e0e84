import SnakeOs.Lib.Files
import SnakeOs.Lib.Regex

/-! What is unmounted before a reboot. -/

namespace SnakeOs.Disk
open Lib

def sdStart : Line := "/dev/sd".toList

/-- The group of `s,^\(/dev/sd[a-z][0-9]\).*$,\1,p`. -/
def sdDigit : List (Char → Bool) := sdStart.map (fun c d => c == d) ++ [Char.isLower, Char.isDigit]

/-- The words of `$(sed -n 's,^\(/dev/sd[a-z][0-9]\).*$,\1,p' /proc/mounts)`, in `rc.reboot` and
in `upg_done` of `firmware.cgi`. -/
def mountedWords (files : Line → List Line) (mounts : List Line) : List Line :=
  unquoted (metaOnly files) (textLines [] (capturedLines (mounts.filterMap (matchClasses sdDigit))))

/-- A command that `rc.reboot` runs. -/
inductive Command
  | led
  | opkgStop
  | swapsvcStop
  | sleep (seconds : Nat)
  | umount (device : Line)
  | reboot
deriving DecidableEq

/-- `rc.reboot`, with the lines of `/proc/mounts` when it gets to them. -/
def rcReboot (files : Line → List Line) (mounts : List Line) : List Command :=
  [.led, .opkgStop, .swapsvcStop, .sleep 2] ++ (mountedWords files mounts).map .umount ++ [.reboot]

/-- The device of an entry of `/proc/mounts`. -/
def mountDevice (entry : Line) : Line := cutField ' ' 1 entry

/-- A disk letter and a partition number or none. -/
def IsSdDevice (w : Line) : Prop :=
  ∃ letter number, letter.isLower = true ∧ (∀ c ∈ number, c.isDigit = true) ∧
    w = sdStart ++ letter :: number

/-- The devices that are unmounted are those of the mounted partitions. -/
def UnmountsAll (files : Line → List Line) (mounts : List Line) : Prop :=
  ∀ w, .umount w ∈ rcReboot files mounts ↔ IsSdDevice w ∧ ∃ l ∈ mounts, mountDevice l = w

/-- Every mounted partition has a number of one digit, and what looks like one is mounted. -/
structure OneDigit (mounts : List Line) : Prop where
  digit : ∀ l ∈ mounts, ∀ letter number, letter.isLower = true →
    (∀ c ∈ number, c.isDigit = true) → mountDevice l = sdStart ++ letter :: number →
    number.length = 1
  whole : ∀ l ∈ mounts, ∀ letter digit, letter.isLower = true → digit.isDigit = true →
    sdStart ++ [letter, digit] <+: l → ∃ m ∈ mounts, mountDevice m = sdStart ++ [letter, digit]

/-- What the substitution prints are the first nine characters. -/
theorem matchClasses_sdDigit {line w : Line} : matchClasses sdDigit line = some w ↔
    ∃ letter digit, letter.isLower = true ∧ digit.isDigit = true ∧
      w = sdStart ++ [letter, digit] ∧ w <+: line := by
  rw [matchClasses_eq_some, sdDigit, forall₂_word]
  constructor
  · rintro ⟨⟨v, rfl, hv⟩, hpre⟩
    cases hv with
    | cons hletter hv =>
      cases hv with
      | cons hdigit hv =>
        cases hv
        exact ⟨_, _, hletter, hdigit, rfl, hpre⟩
  · rintro ⟨letter, digit, hletter, hdigit, rfl, hpre⟩
    exact ⟨⟨_, rfl, .cons hletter (.cons hdigit .nil)⟩, hpre⟩

theorem not_special {c : Char} (h : c.isLower = true ∨ c.isDigit = true) :
    c ∉ [' ', '\t', '*', '?', '[', '\n', '\x00'] := by
  intro hm
  have hall : ∀ d ∈ [' ', '\t', '*', '?', '[', '\n', '\x00'],
      d.isLower = false ∧ d.isDigit = false := by decide
  obtain ⟨hl, hd⟩ := hall c hm
  simp [hl, hd] at h

/-- The words are what the substitution prints. -/
theorem mountedWords_eq (files : Line → List Line) (mounts : List Line) :
    mountedWords files mounts = mounts.filterMap (matchClasses sdDigit) := by
  refine words_capturedLines files fun w hw => ?_
  obtain ⟨l, -, hl⟩ := List.mem_filterMap.mp hw
  obtain ⟨letter, digit, hletter, hdigit, rfl, -⟩ := matchClasses_sdDigit.mp hl
  refine ⟨by simp, fun c hc => ?_⟩
  rcases List.mem_append.mp hc with hc | hc
  · have hstart : ∀ c ∈ sdStart, c ∉ [' ', '\t', '*', '?', '[', '\n', '\x00'] := by decide
    exact hstart c hc
  · rcases List.mem_cons.mp hc with rfl | hc
    · exact not_special (.inl hletter)
    · exact not_special (.inr (List.mem_singleton.mp hc ▸ hdigit))

section
variable {files : Line → List Line} {mounts : List Line} {w : Line}

theorem mem_rcReboot :
    .umount w ∈ rcReboot files mounts ↔ ∃ l ∈ mounts, matchClasses sdDigit l = some w := by
  simp [rcReboot, mountedWords_eq]

/-- A number of one digit is found in full. -/
theorem mem_rcReboot_of_mounted (h : OneDigit mounts) (hw : IsSdDevice w) {l : Line}
    (hl : l ∈ mounts) (hdev : mountDevice l = w) : .umount w ∈ rcReboot files mounts := by
  obtain ⟨letter, number, hletter, hnumber, rfl⟩ := hw
  obtain ⟨digit, rfl⟩ := List.length_eq_one_iff.mp (h.digit l hl letter number hletter hnumber hdev)
  refine mem_rcReboot.mpr ⟨l, hl, matchClasses_sdDigit.mpr ?_⟩
  exact ⟨letter, digit, hletter, hnumber digit List.mem_cons_self, rfl, hdev ▸ cutField_first_start ' ' l⟩

/-- All partitions are unmounted by their full names, and nothing else is, exactly when every
number has one digit. -/
theorem unmountsAll_iff (files : Line → List Line) (mounts : List Line) :
    UnmountsAll files mounts ↔ OneDigit mounts := by
  constructor
  · intro h
    refine ⟨fun l hl letter number hletter hnumber hdev => ?_,
      fun l hl letter digit hletter hdigit hpre => ?_⟩
    · have hmem := (h _).mpr ⟨⟨letter, number, hletter, hnumber, hdev⟩, l, hl, rfl⟩
      obtain ⟨_, -, hm⟩ := mem_rcReboot.mp hmem
      obtain ⟨letter', digit', -, -, he, -⟩ := matchClasses_sdDigit.mp hm
      have hlen := congrArg List.length (List.append_cancel_left (hdev.symm.trans he))
      simpa using hlen
    · have hm := matchClasses_sdDigit.mpr ⟨letter, digit, hletter, hdigit, rfl, hpre⟩
      exact ((h _).mp (mem_rcReboot.mpr ⟨l, hl, hm⟩)).2
  · intro h w
    constructor
    · intro hmem
      obtain ⟨l, hl, hm⟩ := mem_rcReboot.mp hmem
      obtain ⟨letter, digit, hletter, hdigit, rfl, hpre⟩ := matchClasses_sdDigit.mp hm
      refine ⟨⟨letter, [digit], hletter, by simpa using hdigit, rfl⟩, ?_⟩
      exact h.whole l hl letter digit hletter hdigit hpre
    · rintro ⟨hw, l, hl, hdev⟩
      exact mem_rcReboot_of_mounted h hw hl hdev

/-- The disk is unmounted by the name of its first partition. -/
theorem not_unmountsAll :
    ¬ UnmountsAll (fun _ => []) ["/dev/sda12 /usb/data vfat rw 0 0".toList] := by
  intro h
  have hmem : .umount "/dev/sda1".toList ∈
      rcReboot (fun _ => []) ["/dev/sda12 /usb/data vfat rw 0 0".toList] :=
    mem_rcReboot.mpr ⟨_, List.mem_singleton_self _, by decide⟩
  obtain ⟨-, l, hl, hdev⟩ := (h _).mp hmem
  rw [List.mem_singleton.mp hl] at hdev
  exact absurd hdev (by decide)

end

end SnakeOs.Disk
