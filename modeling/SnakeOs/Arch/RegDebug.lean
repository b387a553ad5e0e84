import SnakeOs.Arch.MapDesc
import SnakeOs.Lib.Strings

/-! `/proc/str8100/reg_debug`: a command reads or writes one register of the board. -/

namespace SnakeOs.Arch
open Lib

/-- The registers at their virtual addresses; a load may change them too. -/
structure Registers (σ : Type) where
  load : U32 → σ → U32 × σ
  store : U32 → U32 → σ → σ

/-- The registers with `str8100_reg_debug_cmd_buf` and `str8100_reg_debug_result_buf`. -/
structure RegDebug (σ : Type) where
  regs : σ
  cmdBuf : List Char := []
  resultBuf : List Char := []

def efault : Int := 14

def separators : List Char := ['\t', ' ', '\n']

def dumpWord : List Char := ['d', 'u', 'm', 'p']

def writeWord : List Char := ['w', 'r', 'i', 't', 'e']

/-- `0x%08x`. -/
def hex8 (n : U32) : List Char := '0' :: 'x' :: hexDigits 8 n.toNat

def dumpText (addr : U32) : List Char := dumpWord ++ ' ' :: (hex8 addr ++ ['\n'])

def writeText (addr data : U32) : List Char :=
  writeWord ++ ' ' :: (hex8 addr ++ ' ' :: (hex8 data ++ ['\n']))

def resultText (addr content : U32) : List Char :=
  "physical addr: ".toList ++ hex8 addr ++ " content: ".toList ++ hex8 content ++ ['\n']

def simpleStrtoul (arg : List Char) : U32 := (simpleStrtoul16 32 arg).1

variable {σ : Type}

/-- The branch of `dump` from the address on. -/
def regDebugDump (map : Registered) (hw : Registers σ) (count : Nat) (addr : U32)
    (s : RegDebug σ) : Int × RegDebug σ :=
  if addr &&& 3 ≠ 0 then (-efault, s)
  else
    let virAddr := queryMapDescByPhy map addr
    let s := { s with cmdBuf := dumpText addr }
    if virAddr = 0 then (-efault, s)
    else
      let (content, regs) := hw.load virAddr s.regs
      (count, { s with regs, resultBuf := resultText addr content })

/-- The branch of `write` from its two numbers on. -/
def regDebugWrite (map : Registered) (hw : Registers σ) (count : Nat) (addr data : U32)
    (s : RegDebug σ) : Int × RegDebug σ :=
  if addr &&& 3 ≠ 0 then (-efault, s)
  else
    let virAddr := queryMapDescByPhy map addr
    if virAddr = 0 then (-efault, s)
    else
      let (content, regs) := hw.load virAddr (hw.store virAddr data s.regs)
      (count, { regs, cmdBuf := writeText addr data, resultBuf := resultText addr content })

/-- `star_reg_debug_write_proc`, `buffer` being the string at the user's address. -/
def regDebugWriteProc (map : Registered) (hw : Registers σ) (buffer : List Char) (count : Nat)
    (s : RegDebug σ) : Int × RegDebug σ :=
  if count > 0 then
    match strsep separators (some buffer) with
    | (none, _) => (-efault, s)
    | (some cmd, str) =>
      if cmd = dumpWord then
        match strsep separators str with
        | (none, _) => (-efault, s)
        | (some arg, _) => regDebugDump map hw count (simpleStrtoul arg) s
      else if cmd = writeWord then
        match strsep separators str with
        | (none, _) => (-efault, s)
        | (some arg, str) =>
          match strsep separators str with
          | (none, _) => (-efault, s)
          | (some arg', _) =>
            regDebugWrite map hw count (simpleStrtoul arg) (simpleStrtoul arg') s
      else (-efault, s)
  else (count, s)

/-- A command with its numbers. -/
inductive Command where
  | dump (addr : U32)
  | write (addr data : U32)

def Command.addr : Command → U32
  | .dump addr | .write addr _ => addr

def Command.text : Command → List Char
  | .dump addr => dumpText addr
  | .write addr data => writeText addr data

/-- What it reads in the end and the registers it leaves. -/
def Command.access (hw : Registers σ) (virAddr : U32) (regs : σ) : Command → U32 × σ
  | .dump _ => hw.load virAddr regs
  | .write _ data => hw.load virAddr (hw.store virAddr data regs)

def Command.perform (map : Registered) (hw : Registers σ) (cmd : Command) (s : RegDebug σ) :
    RegDebug σ :=
  let (content, regs) := cmd.access hw (queryMapDescByPhy map cmd.addr) s.regs
  ⟨regs, cmd.text, resultText cmd.addr content⟩

/-- The branch that a command takes. -/
def Command.branch (map : Registered) (hw : Registers σ) (count : Nat) :
    Command → RegDebug σ → Int × RegDebug σ
  | .dump addr => regDebugDump map hw count addr
  | .write addr data => regDebugWrite map hw count addr data

/-- The command is about a register: a word of one of the board's mappings, below the page of
the interrupt controller. -/
structure Command.Registered (map : Registered) (cmd : Command) : Prop where
  aligned : cmd.addr.toNat % 4 = 0
  below : cmd.addr.toNat < 0xFFFFF000
  mapped : ∃ m ∈ stdDesc, m.InPhys cmd.addr ∧ m.InVirt (queryMapDescByPhy map cmd.addr)
  word : (queryMapDescByPhy map cmd.addr).toNat % 4 = 0

theorem hexDigits_plain {k n : Nat} : ∀ c ∈ hexDigits k n, c ∉ separators := by
  intro c hc
  obtain ⟨d, rfl⟩ := mem_hexDigits hc
  have hall : ∀ d : Fin 16, Nat.digitChar d ∉ separators := by decide
  exact hall d

theorem hex8_plain (n : U32) : ∀ c ∈ hex8 n, c ∉ separators := by
  intro c hc
  simp only [hex8, List.mem_cons] at hc
  rcases hc with rfl | rfl | hc
  · decide
  · decide
  · exact hexDigits_plain c hc

theorem simpleStrtoul_hex8 (n : U32) : simpleStrtoul (hex8 n) = n := by
  have h : simpleStrtoul16 32 (hex8 n) = (n, []) := simpleStrtoul16_printed 8 n
  rw [simpleStrtoul, h]

section
variable {map : Registered} {hw : Registers σ}

/-- The text of a command is read as the command. -/
theorem writeProc_text (cmd : Command) {n : Nat} (hn : 0 < n) (s : RegDebug σ) :
    regDebugWriteProc map hw cmd.text n s = cmd.branch map hw n s := by
  have hspace : ' ' ∈ separators := by decide
  have hend : '\n' ∈ separators := by decide
  rw [regDebugWriteProc, if_pos hn]
  cases cmd with
  | dump addr =>
    have hword : ∀ c ∈ dumpWord, c ∉ separators := by decide
    rw [Command.text, dumpText, strsep_token hword hspace]
    simp only [if_true]
    rw [strsep_token (hex8_plain addr) hend]
    simp only [simpleStrtoul_hex8]
    rfl
  | write addr data =>
    have hword : ∀ c ∈ writeWord, c ∉ separators := by decide
    have hother : writeWord ≠ dumpWord := by decide
    rw [Command.text, writeText, strsep_token hword hspace]
    simp only [if_neg hother, if_true]
    rw [strsep_token (hex8_plain addr) hspace]
    simp only
    rw [strsep_token (hex8_plain data) hend]
    simp only [simpleStrtoul_hex8]
    rfl

variable (map hw)

/-- Every text is refused, or read as a command. -/
theorem writeProc_cases (buffer : List Char) (count : Nat) (s : RegDebug σ) :
    (count = 0 ∧ regDebugWriteProc map hw buffer count s = (0, s)) ∨
      regDebugWriteProc map hw buffer count s = (-efault, s) ∨
      0 < count ∧ ∃ cmd : Command,
        regDebugWriteProc map hw buffer count s = cmd.branch map hw count s := by
  unfold regDebugWriteProc
  by_cases hn : count > 0
  · rw [if_pos hn]
    right
    split
    · exact .inl rfl
    · split
      · split
        · exact .inl rfl
        · rename_i arg _ _
          exact .inr ⟨hn, .dump (simpleStrtoul arg), rfl⟩
      · split
        · split
          · exact .inl rfl
          · rename_i arg _ _
            split
            · exact .inl rfl
            · rename_i arg' _ _
              exact .inr ⟨hn, .write (simpleStrtoul arg) (simpleStrtoul arg'), rfl⟩
        · exact .inl rfl
  · have hzero : count = 0 := by omega
    rw [if_neg hn, hzero]
    exact .inl ⟨rfl, rfl⟩

/-- A command is carried out when its address is aligned and found. -/
theorem branch_cases (cmd : Command) (count : Nat) (s : RegDebug σ) :
    ((cmd.addr &&& 3 ≠ 0 ∨ queryMapDescByPhy map cmd.addr = 0) ∧
      (cmd.branch map hw count s).1 = -efault ∧ (cmd.branch map hw count s).2.regs = s.regs ∧
      (cmd.branch map hw count s).2.resultBuf = s.resultBuf) ∨
    (cmd.addr &&& 3 = 0 ∧ queryMapDescByPhy map cmd.addr ≠ 0 ∧
      cmd.branch map hw count s = ((count : Int), cmd.perform map hw s)) := by
  cases cmd with
  | dump addr =>
    simp only [Command.branch, regDebugDump, Command.addr]
    by_cases halign : addr &&& 3 = 0
    · rw [if_neg (not_not.mpr halign)]
      by_cases hfound : queryMapDescByPhy map addr = 0
      · rw [if_pos hfound]
        exact .inl ⟨.inr hfound, rfl, rfl, rfl⟩
      · rw [if_neg hfound]
        exact .inr ⟨halign, hfound, rfl⟩
    · rw [if_pos halign]
      exact .inl ⟨.inl halign, rfl, rfl, rfl⟩
  | write addr data =>
    simp only [Command.branch, regDebugWrite, Command.addr]
    by_cases halign : addr &&& 3 = 0
    · rw [if_neg (not_not.mpr halign)]
      by_cases hfound : queryMapDescByPhy map addr = 0
      · rw [if_pos hfound]
        exact .inl ⟨.inr hfound, rfl, rfl, rfl⟩
      · rw [if_neg hfound]
        exact .inr ⟨halign, hfound, rfl⟩
    · rw [if_pos halign]
      exact .inl ⟨.inl halign, rfl, rfl, rfl⟩

end

theorem aligned_iff (addr : U32) : addr &&& 3 = 0 ↔ addr.toNat % 4 = 0 := by
  have hmask : (addr &&& 3).toNat = addr.toNat % 4 := by
    rw [BitVec.toNat_and]
    exact Nat.and_two_pow_sub_one_eq_mod addr.toNat 2
  rw [← hmask]
  exact ⟨fun h => congrArg BitVec.toNat h, fun h => BitVec.eq_of_toNat_eq h⟩

/-- What the lookup finds is a register. -/
theorem registered_of_found (r : Registered) (cmd : Command) (halign : cmd.addr &&& 3 = 0)
    (hfound : queryMapDescByPhy (mapIo r) cmd.addr ≠ 0) : cmd.Registered (mapIo r) := by
  have hr := mapIo_entries r
  have hbelow : cmd.addr.toNat < 0xFFFFF000 := by
    by_contra hlast
    exact hfound (query_vic hr cmd.addr (by omega))
  have htranslated := translated_below hr cmd.addr hbelow
  have hin : ∃ m ∈ stdDesc, m.InPhys cmd.addr := by
    by_contra hnone
    exact hfound (htranslated.outside fun m hm h => hnone ⟨m, hm, h⟩)
  obtain ⟨m, hm, hphys, hvirt, hoffset, -⟩ := htranslated.inside hin
  have hmod := (aligned_iff cmd.addr).mp halign
  refine ⟨hmod, hbelow, ⟨m, hm, hphys, hvirt⟩, ?_⟩
  rw [pageShift] at hoffset
  omega

/-- Whatever is written to `reg_debug`, either no register is touched, or one is, an aligned word
of the board's mappings, and the text that is left in the command buffer does the same when it
is written again. -/
theorem commands_replay (r : Registered) (hw : Registers σ) (buffer : List Char) (count : Nat)
    (s : RegDebug σ) :
    let out := regDebugWriteProc (mapIo r) hw buffer count s
    (out.2.regs = s.regs ∧ out.2.resultBuf = s.resultBuf ∧
        (out.1 = -efault ∨ count = 0 ∧ out.1 = 0)) ∨
      ∃ cmd : Command, cmd.Registered (mapIo r) ∧
        out = ((count : Int), cmd.perform (mapIo r) hw s) ∧
        ∀ n > 0, ∀ t, regDebugWriteProc (mapIo r) hw out.2.cmdBuf n t =
          ((n : Int), cmd.perform (mapIo r) hw t) := by
  intro out
  rcases writeProc_cases (mapIo r) hw buffer count s with
    ⟨hzero, hout⟩ | hout | ⟨hpos, cmd, hout⟩
  · left
    rw [show out = (0, s) from hout]
    exact ⟨rfl, rfl, .inr ⟨hzero, rfl⟩⟩
  · left
    rw [show out = (-efault, s) from hout]
    exact ⟨rfl, rfl, .inl rfl⟩
  · rw [show out = cmd.branch (mapIo r) hw count s from hout]
    rcases branch_cases (mapIo r) hw cmd count s with
      ⟨-, herr, hregs, hresult⟩ | ⟨halign, hfound, hdone⟩
    · exact .inl ⟨hregs, hresult, .inl herr⟩
    · right
      refine ⟨cmd, registered_of_found r cmd halign hfound, hdone, fun n hn t => ?_⟩
      have htext : (cmd.branch (mapIo r) hw count s).2.cmdBuf = cmd.text := by
        rw [hdone]
        rfl
      rw [htext, writeProc_text cmd hn]
      rcases branch_cases (mapIo r) hw cmd n t with ⟨hnot, -⟩ | ⟨-, -, hagain⟩
      · rcases hnot with hnot | hnot
        · exact absurd halign hnot
        · exact absurd hnot hfound
      · exact hagain

end SnakeOs.Arch
