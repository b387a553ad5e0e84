import SnakeOs.Flash.Part

namespace SnakeOs.Flash
open Arch Lib
open Lib.Client (issued answers run_bind run_pure issued_bind issued_pure)

def Part.window (p : Part) (m : Nor 8) : Nor 8 := m.window p.offset.toNat p.size.toNat

/-- A partition as a NOR array of its own. Transfers end with it, an erase past its first
byte is taken as it is. -/
def Part.onWindow (g : Bank) (p : Part) (m : Nor 8) : Call → Reply × Nor 8
  | .read start len =>
    let n := min len.toNat (p.size.toNat - start.toInt.toNat)
    if n = 0 then (.code 0, m)
    else (⟨0, some n, (m.read start.toInt.toNat n).map BitVec.toNat, none⟩, m)
  | .write dst len buf =>
    let n := min len.toNat (p.size.toNat - dst.toInt.toNat)
    if ¬ p.Writeable then (.code erofs, m)
    else if n = 0 then (.code 0, m)
    else (⟨0, some n, [], none⟩, m.program dst.toInt.toNat n fun i => BitVec.ofNat 8 (buf i))
  | .erase addr len =>
    if ¬ p.Writeable then (.code erofs, m)
    else if p.size.toNat ≤ addr.toNat then (.code einval, m)
    else if addr.toNat % g.eraseSize ≠ 0 ∨ len.toNat % g.eraseSize ≠ 0 then (.code einval, m)
    else (⟨0, none, [], some .done⟩, m.erase addr.toNat len.toNat)

/-- A partition of the flash whose writeable form starts at a sector. -/
structure Part.Sound (g : Bank) (p : Part) : Prop where
  inside : p.offset.toNat + p.size.toNat ≤ g.size
  aligned : p.Writeable → p.offset.toNat % g.eraseSize = 0

/-- The partitions of a table are such unless their ends wrap. -/
theorem addMtdPartitions_sound {g : Bank} {qs : List MtdPartition}
    (h : ∀ p ∈ addMtdPartitions g.master qs, p.offset.toNat + p.size.toNat < 2 ^ 32) :
    ∀ p ∈ addMtdPartitions g.master qs, p.Sound g := by
  intro p hp
  have hbank := (bank_size g).1
  have hsector := (bank_sectors g).1
  have hplaced := addPartitions_placed g.master qs 0 p hp
  have hsize : g.master.size.toNat = g.size :=
    UInt32.toNat_ofNat_of_lt' (show _ < 2 ^ 32 by omega)
  have herase : g.master.erasesize.toNat = g.eraseSize :=
    UInt32.toNat_ofNat_of_lt' (show _ < 2 ^ 32 by rw [Bank.eraseSize]; omega)
  have hslave : p.erasesize.toNat = g.eraseSize := by
    rw [hplaced.single (Nat.le_refl 1), herase]
  have hpos : p.erasesize ≠ 0 := by
    intro hzero
    rw [hzero, UInt32.toNat_zero, Bank.eraseSize] at hslave
    omega
  refine ⟨?_, fun hw => ?_⟩
  · rw [← hsize]
    exact hplaced.inside.resolve_right (Nat.not_le.mpr (h p hp))
  · rw [← hslave, ← UInt32.toNat_mod, (hplaced.aligned hw hpos).1, UInt32.toNat_zero]

/-- What the users of a partition may ask of it: no `loff_t` overflow, no write across a
page in its first chunk, and no erase beyond the partition or the driver's reach. -/
def Part.Proper (g : Bank) (p : Part) : Call → Prop
  | .read start len => 0 ≤ start.toInt ∧ start.toInt + len.toNat < 2 ^ 62
  | .write dst len _ => 0 ≤ dst.toInt ∧ dst.toInt + len.toNat < 2 ^ 62 ∧
      InPages dst.toInt.toNat (min len.toNat (p.size.toNat - dst.toInt.toNat))
  | .erase addr len => p.size.toNat ≤ addr.toNat ∨ addr.toNat + len.toNat ≤ p.size.toNat ∧
      EraseSafe g (addr.toNat + p.offset.toNat) len.toNat

instance (g : Bank) (p : Part) (call : Call) : Decidable (p.Proper g call) :=
  match call with
  | .read start len =>
    inferInstanceAs (Decidable (0 ≤ start.toInt ∧ start.toInt + len.toNat < 2 ^ 62))
  | .write dst len _ =>
    inferInstanceAs (Decidable (0 ≤ dst.toInt ∧ dst.toInt + len.toNat < 2 ^ 62 ∧
      InPages dst.toInt.toNat (min len.toNat (p.size.toNat - dst.toInt.toNat))))
  | .erase addr len =>
    inferInstanceAs (Decidable (p.size.toNat ≤ addr.toNat ∨
      addr.toNat + len.toNat ≤ p.size.toNat ∧
        EraseSafe g (addr.toNat + p.offset.toNat) len.toNat))

/-- One call of a partition on the array: its own cells change as those of an array of its
own, no other cell does, and the driver is called as it can serve. -/
structure Served (g : Bank) (p : Part) (m : Nor 8) (call : Call) : Prop where
  reply : ((p.handle call).run (Call.onArray g) m).1 = (p.onWindow g (p.window m) call).1
  window : p.window ((p.handle call).run (Call.onArray g) m).2 =
    (p.onWindow g (p.window m) call).2
  outside : ∀ a, a < p.offset.toNat ∨ p.offset.toNat + p.size.toNat ≤ a →
    ((p.handle call).run (Call.onArray g) m).2 a = m a
  regular : ∀ c ∈ (p.handle call).issued (Call.onArray g) m, c.Regular g

theorem clip_eq (p : Part) {start : Int64} (len : UInt32) {n : Nat} (hn : start.toInt = n)
    (hmax : n + len.toNat < 2 ^ 62) :
    (p.clip start len).toNat = min len.toNat (p.size.toNat - n) := by
  have hsize := p.size.toNat_lt
  have hloff := loff_le n len.toNat (by omega) (by omega)
  unfold Part.clip
  rw [hn, hloff]
  split
  · rw [UInt32.toNat_zero]
    omega
  · split
    · have hdiff : ((p.size.toNat : Int) - (n : Int)) = ((p.size.toNat - n : Nat) : Int) := by omega
      rw [hdiff, toU32_natCast (by omega), UInt32.toNat_ofNat_of_lt' (show _ < 2 ^ 32 by omega)]
      omega
    · omega

theorem shift_eq (p : Part) {start : Int64} {n : Nat} (hn : start.toInt = n) (hmax : n < 2 ^ 62) :
    (p.shift start).toInt = (n + p.offset.toNat : Nat) := by
  have hoff := p.offset.toNat_lt
  unfold Part.shift
  rw [hn, ← Int.natCast_add, Int64.toInt_ofInt_of_le (by omega) (by omega)]

/-- A call turned away by the partition itself. -/
theorem served_done {g : Bank} {p : Part} {m : Nor 8} {call : Call} {r : Reply}
    (hdone : p.handle call = .done r)
    (hspec : p.onWindow g (p.window m) call = (r, p.window m)) : Served g p m call :=
  ⟨by rw [hdone, hspec]; rfl, by rw [hdone, hspec]; rfl, fun _ _ => by rw [hdone]; rfl,
    by rw [hdone]; simp [issued]⟩

theorem served_read {g : Bank} {p : Part} (hp : p.Sound g) {start : Int64} {len : UInt32}
    (hc : p.Proper g (.read start len)) (m : Nor 8) : Served g p m (.read start len) := by
  obtain ⟨h0, hmax⟩ := hc
  obtain ⟨n, hn⟩ := Int.eq_ofNat_of_zero_le h0
  rw [hn] at hmax
  have hclip := clip_eq p len hn (by omega)
  have hshift := shift_eq p hn (by omega)
  have hin := hp.inside
  have hcall : (Call.read (p.shift start) (p.clip start len)).onArray g m =
      ((p.onWindow g (p.window m) (.read start len)).1, m) := by
    simp only [Call.onArray, Part.onWindow, hclip, hshift, hn, Int.toNat_natCast]
    by_cases hz : min len.toNat (p.size.toNat - n) = 0
    · rw [if_pos hz, if_pos hz]
    · have hfit : n + min len.toNat (p.size.toNat - n) ≤ p.size.toNat := by omega
      rw [if_neg hz, if_neg hz, if_neg (by omega), Part.window, Nor.read_window m hfit]
  refine ⟨?_, ?_, fun a _ => ?_, ?_⟩
  · exact (congrArg Prod.fst hcall :)
  · refine (congrArg (fun r => p.window r.2) hcall).trans ?_
    simp only [Part.onWindow]
    split <;> rfl
  · exact congrFun (congrArg Prod.snd hcall) a
  · intro c hcc
    obtain rfl := List.mem_singleton.mp hcc
    have hoff := p.offset.toNat_lt
    simp only [Call.Regular, hclip, hshift]
    omega

theorem served_write {g : Bank} {p : Part} (hp : p.Sound g) {dst : Int64} {len : UInt32}
    {buf : Nat → Nat} (hc : p.Proper g (.write dst len buf)) (m : Nor 8) :
    Served g p m (.write dst len buf) := by
  obtain ⟨h0, hmax, hpages⟩ := hc
  obtain ⟨n, hn⟩ := Int.eq_ofNat_of_zero_le h0
  rw [hn] at hmax hpages
  by_cases hw : p.Writeable
  · have hclip := clip_eq p len hn (by omega)
    have hshift := shift_eq p hn (by omega)
    have hin := hp.inside
    have hcall : (Call.write (p.shift dst) (p.clip dst len) buf).onArray g m =
        (if min len.toNat (p.size.toNat - n) = 0 then (.code 0, m)
        else (⟨0, some (min len.toNat (p.size.toNat - n)), [], none⟩,
          m.program (n + p.offset.toNat) (min len.toNat (p.size.toNat - n))
            fun i => BitVec.ofNat 8 (buf i))) := by
      simp only [Call.onArray, hclip, hshift, Int.toNat_natCast]
      by_cases hz : min len.toNat (p.size.toNat - n) = 0
      · rw [if_pos hz, if_pos hz]
      · rw [if_neg hz, if_neg hz, if_neg (by omega)]
    have hrun : (p.handle (.write dst len buf)).run (Call.onArray g) m =
        (Call.write (p.shift dst) (p.clip dst len) buf).onArray g m := by
      simp only [Part.handle, partWrite, if_neg (not_not_intro hw)]
      rfl
    refine ⟨?_, ?_, fun a ha => ?_, ?_⟩
    · rw [hrun, hcall]
      simp only [Part.onWindow, if_neg (not_not_intro hw), hn, Int.toNat_natCast]
      split <;> rfl
    · rw [hrun, hcall]
      simp only [Part.onWindow, if_neg (not_not_intro hw), hn, Int.toNat_natCast]
      split
      · rfl
      · have hfit : n + min len.toNat (p.size.toNat - n) ≤ p.size.toNat := by omega
        exact Nor.program_window m (fun i => BitVec.ofNat 8 (buf i)) hfit
    · rw [hrun, hcall]
      split
      · rfl
      · refine Nor.program_of_outside m (fun i => BitVec.ofNat 8 (buf i)) ?_
        omega
    · intro c hcc
      simp only [Part.handle, partWrite, if_neg (not_not_intro hw)] at hcc
      obtain rfl := List.mem_singleton.mp hcc
      have hoff := p.offset.toNat_lt
      have halign := hp.aligned hw
      rw [Bank.eraseSize, (bank_sectors g).1] at halign
      simp only [Call.Regular, hclip, hshift, Int.toNat_natCast]
      simp only [InPages, Int.toNat_natCast] at hpages ⊢
      omega
  · refine served_done (r := .code erofs) ?_ ?_
    · simp only [Part.handle, partWrite, if_pos hw]
    · simp only [Part.onWindow, if_pos hw]

theorem served_erase {g : Bank} {p : Part} (hp : p.Sound g) {addr len : UInt32}
    (hc : p.Proper g (.erase addr len)) (m : Nor 8) : Served g p m (.erase addr len) := by
  by_cases hw : p.Writeable
  · by_cases hbig : addr ≥ p.size
    · have hle := UInt32.le_iff_toNat_le.mp hbig
      refine served_done (r := .code einval) ?_ ?_
      · simp only [Part.handle, partErase, if_neg (not_not_intro hw), if_pos hbig]
      · simp only [Part.onWindow, if_neg (not_not_intro hw), if_pos hle]
    · have hlt : ¬ p.size.toNat ≤ addr.toNat := fun h => hbig (UInt32.le_iff_toNat_le.mpr h)
      obtain ⟨hfit, hsafe⟩ : _ ∧ _ := hc.resolve_left hlt
      have hin := hp.inside
      have hbank := (bank_size g).1
      have halign := hp.aligned hw
      have hsize : (addr + p.offset).toNat = addr.toNat + p.offset.toNat := by
        rw [UInt32.toNat_add, Nat.mod_eq_of_lt (by omega)]
      rw [Bank.eraseSize, (bank_sectors g).1] at halign
      have hcall : (Call.erase (addr + p.offset) len).onArray g m =
          (if addr.toNat % g.eraseSize ≠ 0 ∨ len.toNat % g.eraseSize ≠ 0 then (.code einval, m)
          else (⟨0, none, [], some .done⟩,
            m.erase (addr.toNat + p.offset.toNat) len.toNat)) := by
        simp only [Call.onArray, hsize, Bank.eraseSize, (bank_sectors g).1]
        refine if_congr ?_ rfl rfl
        omega
      have hrun : (p.handle (.erase addr len)).run (Call.onArray g) m =
          (Call.erase (addr + p.offset) len).onArray g m := by
        simp only [Part.handle, partErase, if_neg (not_not_intro hw), if_neg hbig]
        rfl
      refine ⟨?_, ?_, fun a ha => ?_, ?_⟩
      · rw [hrun, hcall]
        simp only [Part.onWindow, if_neg (not_not_intro hw), if_neg hlt]
        split <;> rfl
      · rw [hrun, hcall]
        simp only [Part.onWindow, if_neg (not_not_intro hw), if_neg hlt]
        split
        · rfl
        · exact Nor.erase_window m hfit
      · rw [hrun, hcall]
        split
        · rfl
        · refine Nor.erase_of_outside m ?_
          omega
      · intro c hcc
        simp only [Part.handle, partErase, if_neg (not_not_intro hw), if_neg hbig] at hcc
        obtain rfl := List.mem_singleton.mp hcc
        simpa only [Call.Regular, hsize] using hsafe
  · refine served_done (r := .code erofs) ?_ ?_
    · simp only [Part.handle, partErase, if_pos hw]
    · simp only [Part.onWindow, if_pos hw]

theorem served {g : Bank} {p : Part} (hp : p.Sound g) {call : Call} (hc : p.Proper g call)
    (m : Nor 8) : Served g p m call := by
  cases call with
  | read start len => exact served_read hp hc m
  | write dst len buf => exact served_write hp hc m
  | erase addr len => exact served_erase hp hc m

/-- Requests for the partitions one after another, each with the number of its partition. -/
def serve (parts : List Part) : List (Nat × Call) → Client Call Reply (List (Nat × Reply))
  | [] => .done []
  | (i, call) :: rest =>
    match parts[i]? with
    | none => serve parts rest
    | some p => do
      let r ← p.handle call
      let rs ← serve parts rest
      return (i, r) :: rs

/-- What belongs to partition `i`. -/
def own {α : Type} (i : Nat) (xs : List (Nat × α)) : List α :=
  xs.filterMap fun x => if x.1 = i then some x.2 else none

theorem own_cons_self {α : Type} (i : Nat) (x : α) (xs : List (Nat × α)) :
    own i ((i, x) :: xs) = x :: own i xs := by
  simp [own]

theorem own_cons_of_ne {α : Type} {i j : Nat} (h : j ≠ i) (x : α) (xs : List (Nat × α)) :
    own i ((j, x) :: xs) = own i xs := by
  simp [own, h]

def Call.isRead : Call → Bool
  | .read _ _ => true
  | _ => false

/-- The request leaves the cells of `p` alone: it is for a partition that has none of them,
or it is a read. -/
def Harmless (p q : Part) (call : Call) : Prop := q.Apart p ∨ call.isRead = true

instance (p q : Part) (call : Call) : Decidable (Harmless p q call) :=
  inferInstanceAs (Decidable (_ ∨ _))

theorem Served.harmless {g : Bank} {p q : Part} {m : Nor 8} {call : Call}
    (h : Served g q m call) (hh : Harmless p q call) :
    p.window ((q.handle call).run (Call.onArray g) m).2 = p.window m := by
  rcases hh with hapart | hread
  · refine Nor.window_congr fun a hlow hhigh => h.outside a ?_
    unfold Part.Apart at hapart
    omega
  · cases call with
    | erase addr len => exact absurd hread Bool.false_ne_true
    | write dst len buf => exact absurd hread Bool.false_ne_true
    | read start len =>
      simp only [Part.handle, partRead, Client.run, Call.onArray]
      split
      · rfl
      · split <;> rfl

theorem serve_cons {parts : List Part} {i : Nat} {p : Part} (hp : parts[i]? = some p) (call : Call)
    (rest : List (Nat × Call)) : serve parts ((i, call) :: rest) = (do
      let r ← p.handle call
      let rs ← serve parts rest
      return (i, r) :: rs) := by
  simp only [serve, hp]

/-- What partition `i` sees of a run, by induction on the requests: its own are served from
its window, and the others leave the window as it is. -/
theorem serve_own {g : Bank} {parts : List Part} {i : Nat} {p : Part} (hp : parts[i]? = some p)
    (hsound : ∀ q ∈ parts, q.Sound g) (reqs : List (Nat × Call))
    (hproper : ∀ r ∈ reqs, ∀ q ∈ parts[r.1]?, q.Proper g r.2)
    (hothers : ∀ r ∈ reqs, r.1 ≠ i → ∀ q ∈ parts[r.1]?, Harmless p q r.2) (m : Nor 8) :
    own i ((serve parts reqs).run (Call.onArray g) m).1 =
        (answers (p.onWindow g) (own i reqs) (p.window m)).1 ∧
      p.window ((serve parts reqs).run (Call.onArray g) m).2 =
        (answers (p.onWindow g) (own i reqs) (p.window m)).2 := by
  induction reqs generalizing m with
  | nil => exact ⟨rfl, rfl⟩
  | cons r reqs ih =>
    obtain ⟨j, call⟩ := r
    have hrest := fun m => ih (fun r hr => hproper r (List.mem_cons_of_mem _ hr))
      (fun r hr => hothers r (List.mem_cons_of_mem _ hr)) m
    by_cases hj : j = i
    · subst j
      have hs := served (hsound p (List.mem_of_getElem? hp))
        (hproper _ List.mem_cons_self p hp) m
      obtain ⟨hreplies, hwindow⟩ := hrest ((p.handle call).run (Call.onArray g) m).2
      rw [hs.window] at hreplies hwindow
      rw [serve_cons hp, own_cons_self]
      simp only [run_bind, run_pure, own_cons_self, answers, hs.reply, hreplies, hwindow, and_self]
    · rw [own_cons_of_ne hj]
      cases hq : parts[j]? with
      | none =>
        simp only [serve, hq]
        exact hrest m
      | some q =>
        have hs := served (hsound q (List.mem_of_getElem? hq))
          (hproper _ List.mem_cons_self q hq) m
        have hsame := hs.harmless (hothers _ List.mem_cons_self hj q hq)
        obtain ⟨hreplies, hwindow⟩ := hrest ((q.handle call).run (Call.onArray g) m).2
        rw [hsame] at hreplies hwindow
        rw [serve_cons hq]
        simp only [run_bind, run_pure, own_cons_of_ne hj, hreplies, hwindow, and_self]

theorem serve_regular {g : Bank} {parts : List Part} (hsound : ∀ q ∈ parts, q.Sound g)
    (reqs : List (Nat × Call))
    (hproper : ∀ r ∈ reqs, ∀ q ∈ parts[r.1]?, q.Proper g r.2) (m : Nor 8) :
    ∀ c ∈ (serve parts reqs).issued (Call.onArray g) m, c.Regular g := by
  induction reqs generalizing m with
  | nil => simp [serve, issued]
  | cons r reqs ih =>
    obtain ⟨j, call⟩ := r
    have hrest := fun m => ih (fun r hr => hproper r (List.mem_cons_of_mem _ hr)) m
    cases hq : parts[j]? with
    | none =>
      simp only [serve, hq]
      exact hrest m
    | some q =>
      have hs := served (hsound q (List.mem_of_getElem? hq))
        (hproper _ List.mem_cons_self q hq) m
      rw [serve_cons hq]
      intro c hc
      simp only [issued_bind, issued_pure, List.append_nil, List.mem_append] at hc
      rcases hc with hc | hc
      · exact hs.regular c hc
      · exact hrest _ c hc

/-- A partition of the flash is a flash of its own: whatever is asked of the partitions that
share no byte with it, and whatever is read of those that do, its own requests are answered
as by an array of its own, and its bytes are those of that array. -/
theorem partition_isolated (g : Bank) (c : Chip) (busy : Nat) (d : Device)
    (qs : List MtdPartition) (i : Nat) (p : Part) (reqs : List (Nat × Call))
    (hp : (addMtdPartitions g.master qs)[i]? = some p)
    (hwrap : ∀ p ∈ addMtdPartitions g.master qs, p.offset.toNat + p.size.toNat < 2 ^ 32)
    (hproper : ∀ r ∈ reqs, ∀ q ∈ (addMtdPartitions g.master qs)[r.1]?, q.Proper g r.2)
    (hothers : ∀ r ∈ reqs, r.1 ≠ i →
      ∀ q ∈ (addMtdPartitions g.master qs)[r.1]?, Harmless p q r.2)
    (hg : Genuine g d (performAll g c (Spi.init busy)
      ((serve (addMtdPartitions g.master qs) reqs).issued (Call.onArray g) d.array)).frames) :
    let r := (serve (addMtdPartitions g.master qs) reqs).run (Call.onDriver g c) (Spi.init busy)
    own i r.1 = (answers (p.onWindow g) (own i reqs) (p.window d.array)).1 ∧
      p.window (d.after r.2.frames).array =
        (answers (p.onWindow g) (own i reqs) (p.window d.array)).2 := by
  have hsound := addMtdPartitions_sound hwrap
  obtain ⟨hrun, harray⟩ := run_genuine hg (serve_regular hsound reqs hproper d.array)
  simp only [hrun, harray]
  exact serve_own hp hsound reqs hproper hothers d.array

/-- KERNEL is erased and read while CFG is written and ALL is read. -/
theorem partition_isolated_kernel :
    let g : Bank := ⟨⟨64, 0x10000, 16384, 256⟩, 0x20, 0x2016, rfl⟩
    let c : Chip := ⟨fun _ => 0, fun k => if k = 1 ∨ k = 3 then welBit else 0, fun _ => 0xFF⟩
    let d : Device := ⟨fun _ => 0, false⟩
    let p : Part := ⟨0x60000, 0xf0000, 0x10000, 3⟩
    let reqs := [(2, Call.erase 0 0x10000), (1, .write 0x100 1 fun _ => 7), (5, .read 0x60000 1),
      (2, .read 0 1)]
    let r := (serve (addMtdPartitions g.master fixedParts) reqs).run (Call.onDriver g c)
      (Spi.init 0)
    own 2 r.1 = (answers (p.onWindow g) (own 2 reqs) (p.window d.array)).1 ∧
      p.window (d.after r.2.frames).array =
        (answers (p.onWindow g) (own 2 reqs) (p.window d.array)).2 :=
  partition_isolated _ _ 0 _ fixedParts 2 _ _ (by decide +kernel) (by decide +kernel)
    (by decide +kernel) (by decide +kernel) (by decide +kernel)

end SnakeOs.Flash
