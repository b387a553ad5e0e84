import SnakeOs.Dma.BusyCopy

namespace SnakeOs.Dma.Busy
open Arch

/-- A length of whole units of the width. -/
theorem units_exact {n sh : Nat} (h : 2 ^ sh ∣ n) : n >>> sh <<< sh = n := by
  rw [Nat.shiftRight_eq_div_pow, Nat.shiftLeft_eq, Nat.div_mul_cancel h]

theorem dmaMaxLen_eq (sh : Nat) : dmaMaxLen sh = 0xfff * 2 ^ sh := Nat.shiftLeft_eq 0xfff sh

theorem dvd_dmaMaxLen (sh : Nat) : 2 ^ sh ∣ dmaMaxLen sh :=
  ⟨0xfff, (dmaMaxLen_eq sh).trans (Nat.mul_comm _ _)⟩

theorem dmaMaxLen_pos (sh : Nat) : 0 < dmaMaxLen sh := by
  rw [dmaMaxLen_eq]
  exact Nat.mul_pos (by decide) (Nat.two_pow_pos sh)

theorem dvd_chunk {len sh : Nat} (h : 2 ^ sh ∣ len) : 2 ^ sh ∣ min len (dmaMaxLen sh) := by
  rcases Nat.le_total len (dmaMaxLen sh) with hle | hle
  · rwa [Nat.min_eq_left hle]
  · rw [Nat.min_eq_right hle]
    exact dvd_dmaMaxLen sh

theorem lenShift_dvd (dst src : U32) (len : Nat) : 2 ^ lenShift dst src len ∣ len := by
  have h4 : len &&& 3 = len % 4 := Nat.and_two_pow_sub_one_eq_mod len 2
  have h2 : len &&& 1 = len % 2 := Nat.and_two_pow_sub_one_eq_mod len 1
  unfold lenShift
  split
  · rename_i h
    exact Nat.dvd_of_mod_eq_zero (h4 ▸ h.2.2)
  · split
    · rename_i h
      exact Nat.dvd_of_mod_eq_zero (h2 ▸ h.2.2)
    · exact Nat.one_dvd len

/-- The count of a chunk fits the size register, and is not 0. -/
theorem units_bounds {n sh : Nat} (hd : 2 ^ sh ∣ n) (hpos : 0 < n) (hle : n ≤ dmaMaxLen sh) :
    1 ≤ n >>> sh ∧ n >>> sh ≤ 0xfff := by
  obtain ⟨q, rfl⟩ := hd
  have hq : (2 ^ sh * q) >>> sh = q := by
    rw [Nat.shiftRight_eq_div_pow, Nat.mul_div_cancel_left q (Nat.two_pow_pos sh)]
  rw [hq]
  rw [dmaMaxLen_eq, Nat.mul_comm] at hle
  exact ⟨Nat.pos_of_mul_pos_left hpos, Nat.le_of_mul_le_mul_right hle (Nat.two_pow_pos sh)⟩

theorem copyChunks_zero (hw : Controller) (fuel sh rounds : Nat) (pdst psrc : U32) (s : Sys) :
    copyChunks hw fuel sh rounds pdst psrc 0 s = some s := by
  cases rounds <;> rfl

/-- One round: a chunk of at most `dmaMaxLen` bytes, then the rest. -/
theorem copyChunks_round (hw : Controller) (fuel sh rounds : Nat) (pdst psrc : U32) {len : Nat}
    (hlen : 0 < len) (s : Sys) :
    copyChunks hw fuel sh (rounds + 1) pdst psrc len s =
      (dmaCopyBusyWait hw fuel pdst psrc (min len (dmaMaxLen sh)) sh s).bind
        (copyChunks hw fuel sh rounds (place pdst (dmaMaxLen sh)) (place psrc (dmaMaxLen sh))
          (len - dmaMaxLen sh)) := by
  obtain ⟨len, rfl⟩ := Nat.exists_eq_succ_of_ne_zero (Nat.ne_of_gt hlen)
  by_cases hmax : len + 1 > dmaMaxLen sh
  · rw [Nat.min_eq_right (Nat.le_of_lt hmax)]
    simp only [copyChunks, if_pos hmax]
    rfl
  · have hle : len + 1 ≤ dmaMaxLen sh := Nat.le_of_not_lt hmax
    rw [Nat.min_eq_left hle, Nat.sub_eq_zero_of_le hle]
    rw [copyChunks, if_neg hmax]
    cases dmaCopyBusyWait hw fuel pdst psrc (len + 1) sh s with
    | none => rfl
    | some t => rw [Option.bind_some, copyChunks_zero]

section Exact

variable {m₀ : U32 → U8} {r : Request}

/-- Any chunk. -/
def anyChunk (_ _ : Nat) : Prop := True

/-- The loop copies bytes of the request only, and every count it writes is in range. -/
theorem copyChunks_sound {hw : Controller} {fuel sh : Nat} (rounds : Nat) {off len : Nat}
    {s t : Sys} (hin : off + len ≤ r.len) (hd : 2 ^ sh ∣ len) (h : Sound m₀ r anyChunk s)
    (hsh : s.ch.widthShift = sh)
    (hrun : copyChunks hw fuel sh rounds (place r.dst off) (place r.src off) len s = some t) :
    Sound m₀ r anyChunk t ∧ Keeps m₀ r s t ∧
      ∃ cs, t.counts = s.counts ++ cs ∧ ∀ c ∈ cs, 1 ≤ c ∧ c ≤ 0xfff := by
  induction rounds generalizing off len s with
  | zero =>
    cases len with
    | zero =>
      obtain rfl := Option.some.inj hrun
      exact ⟨h, Keeps.refl s, [], (List.append_nil _).symm, by simp⟩
    | succ len => cases hrun
  | succ rounds ih =>
    rcases Nat.eq_zero_or_pos len with rfl | hpos
    · obtain rfl := Option.some.inj hrun
      exact ⟨h, Keeps.refl s, [], (List.append_nil _).symm, by simp⟩
    · rw [copyChunks_round hw fuel sh rounds _ _ hpos] at hrun
      obtain ⟨u, hu, hrest⟩ := Option.bind_eq_some_iff.mp hrun
      have hdmin := dvd_chunk hd
      obtain ⟨hsu, hku, hcu, hshu⟩ := dmaCopyBusyWait_sound h trivial (by omega)
        (units_exact hdmin) hsh hu
      have hmax := dmaMaxLen_pos sh
      have hnew := units_bounds hdmin (by omega) (Nat.min_le_right _ _)
      rw [place_place, place_place] at hrest
      rcases Nat.le_total len (dmaMaxLen sh) with hle | hle
      · rw [Nat.sub_eq_zero_of_le hle, copyChunks_zero] at hrest
        obtain rfl := Option.some.inj hrest
        exact ⟨hsu, hku, [_], hcu, by simpa using hnew⟩
      · obtain ⟨hst, hkt, cs, hct, hcs⟩ := ih (by omega) (Nat.dvd_sub hd (dvd_dmaMaxLen sh)) hsu
          hshu hrest
        refine ⟨hst, hku.trans hkt, min len (dmaMaxLen sh) >>> sh :: cs, ?_, ?_⟩
        · rw [hct, hcu, List.append_assoc]
          rfl
        · intro c hc
          rcases List.mem_cons.mp hc with rfl | hc
          · exact hnew
          · exact hcs c hc

/-- The state a call finds: no chunk of an earlier one is being copied. A TC or error status of
an earlier chunk may be set, or still to come. -/
structure Entry where
  sys : Sys
  idle : sys.ch.engine = none

/-- A TC status that no chunk of this call sets. -/
def Stale (s : Sys) : Prop := s.ch.tcStatus = true ∨ 0 < s.ch.lateTc

/-- The destination is the source as it was, nothing else has changed, and every count written
to the size register is in range. -/
structure CopyExact (r : Request) (s t : Sys) : Prop where
  copied : ∀ i < r.len, t.mem (place r.dst i) = s.mem (place r.src i)
  outside : ∀ a, (∀ i < r.len, a ≠ place r.dst i) → t.mem a = s.mem a
  counts : ∃ cs, t.counts = s.counts ++ cs ∧ ∀ c ∈ cs, 1 ≤ c ∧ c ≤ 0xfff

/-- The bytes that may be left as they are, those after the first chunk, or all of them when a
TC status is left over, already have the source's values. -/
def Harmless (r : Request) (s : Sys) : Prop :=
  ∀ i < r.len, dmaMaxLen (lenShift r.dst r.src r.len) ≤ i ∨ Stale s →
    s.mem (place r.dst i) = s.mem (place r.src i)

theorem Sound.start {own : Nat → Nat → Prop} {s : Sys} (h : s.ch.engine = none) :
    Sound s.mem r own s := by
  refine ⟨fun a => .inl rfl, fun e he => ?_⟩
  rw [h] at he
  cases he

theorem Stale.not_quiet {s : Sys} (he : s.ch.engine = none) (h : ¬ Stale s) : Quiet s := by
  refine ⟨he, ?_, ?_⟩
  · exact Bool.eq_false_iff.mpr fun htc => h (.inl htc)
  · exact Nat.eq_zero_of_not_pos fun hl => h (.inr hl)

/-- With a clean channel the first chunk is copied whole. -/
theorem copyChunks_first {hw : Controller} {fuel sh rounds : Nat} {s t : Sys}
    (hd : 2 ^ sh ∣ r.len) (h : Sound m₀ r anyChunk s) (hq : Quiet s)
    (hsh : s.ch.widthShift = sh)
    (hrun : copyChunks hw fuel sh rounds (place r.dst 0) (place r.src 0) r.len s = some t)
    {i : Nat} (hi : i < r.len) (hmax : i < dmaMaxLen sh) : Done m₀ r t i := by
  cases rounds with
  | zero =>
    obtain ⟨n, hn⟩ := Nat.exists_eq_succ_of_ne_zero (Nat.ne_zero_of_lt hi)
    rw [hn] at hrun
    cases hrun
  | succ rounds =>
    rw [copyChunks_round hw fuel sh rounds _ _ (Nat.zero_lt_of_lt hi)] at hrun
    obtain ⟨u, hu, hrest⟩ := Option.bind_eq_some_iff.mp hrun
    have hexact := units_exact (dvd_chunk hd)
    have hdone := dmaCopyBusyWait_done h hq (by omega) hexact hsh hu i (by omega)
    obtain ⟨hsu, -, -, hshu⟩ := dmaCopyBusyWait_sound h trivial (by omega) hexact hsh hu
    rw [Nat.zero_add] at hdone
    rcases Nat.le_total r.len (dmaMaxLen sh) with hle | hle
    · rw [Nat.sub_eq_zero_of_le hle, copyChunks_zero] at hrest
      exact Option.some.inj hrest ▸ hdone
    · rw [place_place, place_place] at hrest
      exact (copyChunks_sound rounds (by omega) (Nat.dvd_sub hd (dvd_dmaMaxLen sh)) hsu hshu
        hrest).2.1 i hi hdone

theorem place_zero (a : U32) : place a 0 = a := BitVec.add_zero a

theorem move_stale {s : Sys} (h : Stale s) (m : Move) : Stale (s.move m) := by
  rcases move_tc_cases s m with ⟨htc, hl⟩ | ⟨e, -, -, hl⟩ | ⟨-, htc⟩
  · rw [Stale, htc, hl]
    exact h
  · rw [Stale, hl]
    exact .inr (Nat.succ_pos _)
  · exact .inl htc

theorem access_stale {s : Sys} (hw : Controller) (h : Stale s) : Stale (access hw s) :=
  access_induct (P := Stale) hw h (fun _ m ht => move_stale ht m) fun _ _ ht => ht

/-- What the loop starts from. -/
structure Begun (r : Request) (s t : Sys) : Prop where
  engine : t.ch.engine = none
  mem : t.mem = s.mem
  counts : t.counts = s.counts
  widthShift : t.ch.widthShift = lenShift r.dst r.src r.len
  quiet : Quiet s → Quiet t
  stale : Stale s → Stale t

theorem dmaMemcpyBusyWait_begun (hw : Controller) (fuel : Nat) (r : Request) {s : Sys}
    (hidle : s.ch.engine = none) :
    ∃ s₁, Begun r s s₁ ∧ dmaMemcpyBusyWait hw fuel r.dst r.src r.len s =
      copyChunks hw fuel (lenShift r.dst r.src r.len) r.len (place r.dst 0) (place r.src 0)
        r.len s₁ := by
  obtain ⟨he, hm⟩ := access_idle hw hidle
  refine ⟨{ access hw s with ch := { (access hw s).ch with
    widthShift := lenShift r.dst r.src r.len, enabled := false } },
    ⟨he, hm, (access_steady hw s).counts, rfl, fun hq => ?_, fun hst => ?_⟩, ?_⟩
  · have hq' := access_quiet hw hq
    exact ⟨hq'.engine, hq'.tcStatus, hq'.lateTc⟩
  · exact access_stale hw hst
  · rw [place_zero, place_zero]
    rfl

/-- Where the bytes at risk already have the source's values, every run is exact. -/
theorem Harmless.exact {r : Request} {s t : Sys} (hidle : s.ch.engine = none)
    (h : Harmless r s) {hw : Controller} {fuel : Nat}
    (hrun : dmaMemcpyBusyWait hw fuel r.dst r.src r.len s = some t) : CopyExact r s t := by
  obtain ⟨s₁, hb, heq⟩ := dmaMemcpyBusyWait_begun hw fuel r hidle
  rw [heq] at hrun
  have hd := lenShift_dvd r.dst r.src r.len
  have hsound : Sound s.mem r anyChunk s₁ := hb.mem ▸ Sound.start hb.engine
  obtain ⟨hst, hkeeps, hcounts⟩ := copyChunks_sound r.len (by omega) hd hsound hb.widthShift hrun
  refine ⟨fun i hi => ?_, fun a ha => ?_, hb.counts ▸ hcounts⟩
  · by_cases hrisk : dmaMaxLen (lenShift r.dst r.src r.len) ≤ i ∨ Stale s
    · refine hkeeps i hi ?_
      rw [Done, hb.mem]
      exact h i hi hrisk
    · obtain ⟨hfirst, hclean⟩ := not_or.mp hrisk
      exact copyChunks_first hd hsound (hb.quiet (Stale.not_quiet hidle hclean)) hb.widthShift
        hrun hi (Nat.lt_of_not_le hfirst)
  · rcases hst.writes a with hsame | ⟨i, hi, rfl, -⟩
    · exact hsame
    · exact absurd rfl (ha i hi)

end Exact

section Skip

/-- A controller that copies every chunk at once and leaves its TC status for later, but for
the chunk at `target`: there it sets a TC status that is to come, and drops the chunk when the
channel is disabled. -/
def skipper (target : U32) : Controller := fun s =>
  match s.ch.engine with
  | none => []
  | some e =>
    if e.dst = target then
      if s.ch.enabled then [.raiseTc] else [.stop]
    else List.replicate (e.len - e.copied) .copy ++ [.finish]

variable {target : U32}

theorem skipper_idle {s : Sys} (h : s.ch.engine = none) :
    access (skipper target) s = { s with now := s.now + 1 } := by
  simp only [access, skipper, h]
  rfl

/-- Copying a byte at a time to the end of the chunk. -/
theorem foldl_copy {s : Sys} {e : Engine} (n : Nat) (he : s.ch.engine = some e)
    (hn : e.copied + n ≤ e.len) :
    ((List.replicate n Move.copy).foldl Sys.move s).ch =
      { s.ch with engine := some { e with copied := e.copied + n } } := by
  induction n generalizing s e with
  | zero => simp [← he]
  | succ n ih =>
    have hlt : e.copied < e.len := by omega
    rw [List.replicate_succ, List.foldl_cons]
    simp only [Sys.move, he, if_pos hlt]
    rw [ih rfl (by dsimp only; omega)]
    simp only [Nat.add_assoc, Nat.add_comm 1 n]

/-- No chunk is being copied, and a TC status is to come. -/
def Late (s : Sys) : Prop := s.ch.engine = none ∧ 0 < s.ch.lateTc

/-- A chunk other than the target is being copied, or has been. -/
def Underway (target : U32) (s : Sys) : Prop :=
  Late s ∨ ∃ e, s.ch.engine = some e ∧ e.dst ≠ target ∧ e.copied ≤ e.len

theorem Late.access {s : Sys} (h : Late s) : Late (access (skipper target) s) := by
  rw [skipper_idle h.1]
  exact h

theorem Underway.access {s : Sys} (h : Underway target s) :
    Late (access (skipper target) s) := by
  rcases h with h | ⟨e, he, hne, hle⟩
  · exact h.access
  · have hch := foldl_copy (s := s) (e.len - e.copied) he (by omega)
    simp only [Busy.access, skipper, he, if_neg hne, List.foldl_append, List.foldl_cons,
      List.foldl_nil]
    generalize (List.replicate (e.len - e.copied) Move.copy).foldl Sys.move s = t at hch
    have het : t.ch.engine = some { e with copied := e.copied + (e.len - e.copied) } := by
      rw [hch]
    have hall : e.copied + (e.len - e.copied) = e.len := Nat.add_sub_cancel' hle
    simp only [Sys.move, het, if_pos hall]
    exact ⟨rfl, Nat.succ_pos _⟩

theorem Late.memcpy {s : Sys} (h : Late s) (dst src : U32) (n : Nat) :
    Late (memcpy (skipper target) dst src n s) := by
  induction n with
  | zero => exact h
  | succ n ih => exact ih.access

theorem waitIdle_skipper {s : Sys} (h : s.ch.engine = none) :
    waitIdle (skipper target) 1 s = some { s with now := s.now + 1 } := by
  simp only [waitIdle, skipper_idle h, h, Option.isSome_none]
  rfl

/-- A chunk as a request of its own. -/
def Request.chunk (r : Request) (off n : Nat) (h : off + n ≤ r.len) : Request where
  dst := place r.dst off
  src := place r.src off
  len := n
  len_lt := by
    have := r.len_lt
    omega
  disjoint := by
    intro i hi j hj
    rw [place_place, place_place]
    exact r.disjoint _ (by omega) _ (by omega)

/-- A chunk changes no other byte of the destination. -/
theorem dmaCopyBusyWait_elsewhere {r : Request} {hw : Controller} {fuel off n sh : Nat}
    {s t : Sys} (hidle : s.ch.engine = none) (hin : off + n ≤ r.len) (hn : n >>> sh <<< sh = n)
    (hsh : s.ch.widthShift = sh)
    (hrun : dmaCopyBusyWait hw fuel (place r.dst off) (place r.src off) n sh s = some t) :
    t.ch.widthShift = sh ∧
      ∀ i < r.len, i < off ∨ off + n ≤ i → t.mem (place r.dst i) = s.mem (place r.dst i) := by
  have hrun' : dmaCopyBusyWait hw fuel (place (r.chunk off n hin).dst 0)
      (place (r.chunk off n hin).src 0) n sh s = some t := by
    rw [place_zero, place_zero]
    exact hrun
  obtain ⟨hs, -, -, hsh'⟩ := dmaCopyBusyWait_sound (Sound.start hidle : Sound s.mem _ anyChunk s)
    trivial (Nat.le_of_eq (Nat.zero_add n)) hn hsh hrun'
  refine ⟨hsh', fun i hi hout => ?_⟩
  rcases hs.writes (place r.dst i) with hsame | ⟨k, hk, he, -⟩
  · exact hsame
  · have hlen := r.len_lt
    have hkn : k < n := hk
    have he' : place r.dst i = place r.dst (off + k) := he.trans (place_place r.dst off k)
    have := place_inj (by omega) (by omega) he'
    omega

/-- A chunk that is not the target is copied, with its TC status to come. -/
theorem skipper_copies {r : Request} {off : Nat} {s : Sys} (n sh : Nat)
    (hidle : s.ch.engine = none) (hne : virtToPhys (place r.dst off) ≠ target) :
    ∃ t, dmaCopyBusyWait (skipper target) 1 (place r.dst off) (place r.src off) n sh s = some t ∧
      Late t := by
  simp only [dmaCopyBusyWait, waitIdle_skipper hidle, Option.map_some, Option.some.injEq,
    exists_eq_left']
  have hst := start_spec (skipper target) (place r.dst off) (place r.src off) (n >>> sh)
    (s := { s with now := s.now + 1 }) hidle
  have hunder : Underway target (enable (skipper target) (writeRegs (skipper target)
      (place r.dst off) (place r.src off) (n >>> sh) { s with now := s.now + 1 })) :=
    .inr ⟨_, hst.engine, hne, Nat.zero_le _⟩
  have hpoll := (pollStatus_induct (P := Underway target) (skipper target) dmaCopyBusyWaitLoop
    hunder fun _ hu => .inl hu.access).1
  generalize pollStatus (skipper target) dmaCopyBusyWaitLoop _ = p at hpoll ⊢
  have hdis : Late (disable (skipper target) p.2) := hpoll.access
  split
  · have hclr : Late (clearErr (skipper target) (disable (skipper target) p.2)) := hdis.access
    exact hclr.memcpy _ _ _
  · exact hdis.memcpy _ _ _
  · exact hdis.access

theorem start_stale (hw : Controller) (dst src : U32) (count : Nat) {s : Sys} (h : Stale s) :
    Stale (enable hw (writeRegs hw dst src count s)) := by
  have hregs : Stale (writeRegs hw dst src count s) := by
    refine writeRegs_induct hw dst src count h (fun _ => access_stale hw) ?_
    intro t ch counts _ htc hl ht
    rw [Stale, htc, hl]
    exact ht
  exact access_stale hw hregs

/-- The target is being copied on an enabled channel. -/
def Held (target : U32) (s : Sys) : Prop :=
  (∃ e, s.ch.engine = some e ∧ e.dst = target) ∧ s.ch.enabled = true

/-- A TC status that is to come is set, and nothing is copied. -/
theorem Held.access {s : Sys} (h : Held target s) :
    Held target (access (skipper target) s) ∧ (access (skipper target) s).mem = s.mem ∧
      (Stale s → (access (skipper target) s).ch.tcStatus = true) := by
  obtain ⟨⟨e, he, hd⟩, hen⟩ := h
  simp only [Busy.access, skipper, he, if_pos hd, if_pos hen, List.foldl_cons, List.foldl_nil,
    Sys.move]
  split
  · exact ⟨⟨⟨e, rfl, hd⟩, hen⟩, rfl, fun _ => rfl⟩
  · rename_i hl
    exact ⟨⟨⟨e, he, hd⟩, hen⟩, rfl, fun hst => hst.resolve_right hl⟩

theorem pollStatus_tc {hw : Controller} {s : Sys} (n : Nat)
    (h : (access hw s).ch.tcStatus = true) : pollStatus hw (n + 1) s = (.tc, access hw s) := by
  simp only [pollStatus, if_pos h]

/-- The disabled target is dropped. -/
theorem skipper_drops {s : Sys} (h : Held target s) :
    (clearTc (skipper target) (disable (skipper target) s)).ch.engine = none ∧
      (clearTc (skipper target) (disable (skipper target) s)).mem = s.mem := by
  obtain ⟨⟨⟨e, he, hd⟩, -⟩, hm, -⟩ := h.access
  simp only [clearTc, disable]
  generalize Busy.access (skipper target) s = t at he hm ⊢
  simp only [Busy.access, skipper, he, if_pos hd, List.foldl_cons, List.foldl_nil, Sys.move,
    Bool.false_eq_true, if_false]
  exact ⟨trivial, hm⟩

/-- With a TC status left over the target is taken for copied. -/
theorem skipper_skips {dst : U32} (src : U32) (n sh : Nat) {s : Sys}
    (hidle : s.ch.engine = none) (hst : Stale s) (hd : virtToPhys dst = target) :
    ∃ t, dmaCopyBusyWait (skipper target) 1 dst src n sh s = some t ∧ t.ch.engine = none ∧
      t.mem = s.mem := by
  simp only [dmaCopyBusyWait, waitIdle_skipper hidle, Option.map_some, Option.some.injEq,
    exists_eq_left']
  have hstart := start_spec (skipper target) dst src (n >>> sh)
    (s := { s with now := s.now + 1 }) hidle
  have hstale := start_stale (skipper target) dst src (n >>> sh)
    (s := { s with now := s.now + 1 }) hst
  generalize enable (skipper target) (writeRegs (skipper target) dst src (n >>> sh)
    { s with now := s.now + 1 }) = s₂ at hstart hstale ⊢
  have hheld : Held target s₂ := ⟨⟨_, hstart.engine, hd⟩, hstart.enabled⟩
  obtain ⟨hheld', hmem, htc⟩ := hheld.access
  have hpoll : pollStatus (skipper target) dmaCopyBusyWaitLoop s₂ =
      (.tc, access (skipper target) s₂) := pollStatus_tc 999 (htc hstale)
  rw [hpoll]
  obtain ⟨he, hm⟩ := skipper_drops hheld'
  exact ⟨he, hm.trans (hmem.trans hstart.mem)⟩

variable {r : Request} {sh : Nat}

/-- A round of the loop that is not the target's. -/
theorem copyChunks_copies (rounds : Nat) {off len start : Nat} {s : Sys}
    (htarget : target = virtToPhys (place r.dst start)) (hstart : start < r.len)
    (hne : off ≠ start) (hlen : off + len = r.len) (hpos : 0 < len) (hd : 2 ^ sh ∣ len)
    (hidle : s.ch.engine = none) (hsh : s.ch.widthShift = sh) :
    ∃ u, Late u ∧ u.ch.widthShift = sh ∧
      (∀ i < r.len, i < off ∨ off + min len (dmaMaxLen sh) ≤ i →
        u.mem (place r.dst i) = s.mem (place r.dst i)) ∧
      copyChunks (skipper target) 1 sh (rounds + 1) (place r.dst off) (place r.src off) len s =
        copyChunks (skipper target) 1 sh rounds (place r.dst (off + dmaMaxLen sh))
          (place r.src (off + dmaMaxLen sh)) (len - dmaMaxLen sh) u := by
  have hlt := r.len_lt
  have hother : virtToPhys (place r.dst off) ≠ target := by
    rw [htarget]
    intro he
    exact hne (place_inj (by omega) (by omega) ((BitVec.sub_left_inj _).mp he))
  obtain ⟨u, hu, hlate⟩ := skipper_copies (min len (dmaMaxLen sh)) sh hidle hother
  obtain ⟨hshu, hmem⟩ := dmaCopyBusyWait_elsewhere hidle (by omega)
    (units_exact (dvd_chunk hd)) hsh hu
  refine ⟨u, hlate, hshu, hmem, ?_⟩
  rw [copyChunks_round _ _ _ _ _ _ hpos, hu, Option.bind_some, place_place, place_place]

/-- The loop from `off` on when the target is behind it. -/
theorem copyChunks_past (rounds : Nat) {off len start : Nat} {s : Sys}
    (htarget : target = virtToPhys (place r.dst start)) (hstart : start < r.len)
    (hpast : start < off) (hlen : len = r.len - off) (hrounds : len ≤ rounds) (hd : 2 ^ sh ∣ len)
    (hidle : s.ch.engine = none) (hsh : s.ch.widthShift = sh) :
    ∃ t, copyChunks (skipper target) 1 sh rounds (place r.dst off) (place r.src off) len s =
        some t ∧ ∀ i < r.len, i < off → t.mem (place r.dst i) = s.mem (place r.dst i) := by
  induction rounds generalizing off len s with
  | zero =>
    obtain rfl := Nat.le_zero.mp hrounds
    exact ⟨s, copyChunks_zero _ _ _ _ _ _ s, fun _ _ _ => rfl⟩
  | succ rounds ih =>
    rcases Nat.eq_zero_or_pos len with hz | hpos
    · rw [hz]
      exact ⟨s, copyChunks_zero _ _ _ _ _ _ s, fun _ _ _ => rfl⟩
    · have hmax := dmaMaxLen_pos sh
      obtain ⟨u, hlate, hshu, hmem, hround⟩ := copyChunks_copies rounds htarget hstart
        (Nat.ne_of_gt hpast) (by omega) hpos hd hidle hsh
      obtain ⟨t, ht, hbefore⟩ := ih (Nat.lt_add_right (dmaMaxLen sh) hpast)
        (by omega) (by omega) (Nat.dvd_sub hd (dvd_dmaMaxLen sh)) hlate.1 hshu
      refine ⟨t, hround.trans ht, fun i hi hoff => ?_⟩
      rw [hbefore i hi (by omega), hmem i hi (.inl hoff)]

/-- The loop with the target `q` chunks ahead: its bytes stay as they are. -/
theorem copyChunks_skips (rounds q : Nat) {off len start i : Nat} {s : Sys}
    (htarget : target = virtToPhys (place r.dst start)) (hstart : off + q * dmaMaxLen sh = start)
    (hi : i < r.len) (hlo : start ≤ i) (hhi : i < start + dmaMaxLen sh)
    (hlen : off + len = r.len) (hrounds : len ≤ rounds) (hd : 2 ^ sh ∣ len)
    (hidle : s.ch.engine = none) (hsh : s.ch.widthShift = sh) (hst : q = 0 → Stale s) :
    ∃ t, copyChunks (skipper target) 1 sh rounds (place r.dst off) (place r.src off) len s =
        some t ∧ t.mem (place r.dst i) = s.mem (place r.dst i) := by
  have hmax := dmaMaxLen_pos sh
  induction q generalizing rounds off len s with
  | zero =>
    obtain ⟨rounds, rfl⟩ : ∃ n, rounds = n + 1 := ⟨rounds - 1, by omega⟩
    rw [Nat.zero_mul, Nat.add_zero] at hstart
    have hhere : virtToPhys (place r.dst off) = target := by rw [htarget, hstart]
    obtain ⟨u, hu, heu, hmu⟩ := skipper_skips (place r.src off) (min len (dmaMaxLen sh)) sh hidle
      (hst rfl) hhere
    have hshu := (dmaCopyBusyWait_elsewhere hidle (by omega) (units_exact (dvd_chunk hd)) hsh hu).1
    rw [copyChunks_round _ _ _ _ _ _ (by omega), hu, Option.bind_some, place_place, place_place]
    obtain ⟨t, ht, hbefore⟩ := copyChunks_past rounds htarget (by omega)
      (show start < off + dmaMaxLen sh by omega) (by omega) (by omega)
      (Nat.dvd_sub hd (dvd_dmaMaxLen sh)) heu hshu
    exact ⟨t, ht, by rw [hbefore i hi (by omega), hmu]⟩
  | succ q ih =>
    obtain ⟨rounds, rfl⟩ : ∃ n, rounds = n + 1 := ⟨rounds - 1, by omega⟩
    rw [Nat.succ_mul] at hstart
    obtain ⟨u, hlate, hshu, hmem, hround⟩ := copyChunks_copies rounds htarget
      (by omega) (by omega) hlen (by omega) hd hidle hsh
    obtain ⟨t, ht, hsame⟩ := ih rounds (show off + dmaMaxLen sh + q * dmaMaxLen sh = start by omega)
      (by omega) (by omega) (Nat.dvd_sub hd (dvd_dmaMaxLen sh)) hlate.1 hshu fun _ => .inr hlate.2
    refine ⟨t, hround.trans ht, ?_⟩
    rw [hsame, hmem i hi (.inr (by omega))]

/-- Some controller leaves a byte at risk as it is. -/
theorem dmaMemcpyBusyWait_skips (r : Request) {s : Sys} (hidle : s.ch.engine = none) {i : Nat}
    (hi : i < r.len) (hrisk : dmaMaxLen (lenShift r.dst r.src r.len) ≤ i ∨ Stale s) :
    ∃ hw fuel t, dmaMemcpyBusyWait hw fuel r.dst r.src r.len s = some t ∧
      t.mem (place r.dst i) = s.mem (place r.dst i) := by
  have hd := lenShift_dvd r.dst r.src r.len
  have hmax := dmaMaxLen_pos (lenShift r.dst r.src r.len)
  let q := i / dmaMaxLen (lenShift r.dst r.src r.len)
  let start := q * dmaMaxLen (lenShift r.dst r.src r.len)
  obtain ⟨s₁, hb, heq⟩ := dmaMemcpyBusyWait_begun (skipper (virtToPhys (place r.dst start))) 1 r
    hidle
  have hstale : q = 0 → Stale s₁ := by
    intro hq
    have hlt := (Nat.div_eq_zero_iff_lt hmax).mp hq
    exact hb.stale (hrisk.resolve_left (Nat.not_le_of_lt hlt))
  obtain ⟨t, ht, hsame⟩ := copyChunks_skips r.len q rfl (Nat.zero_add start) hi
    (Nat.div_mul_le_self i _) (Nat.lt_div_mul_add hmax) (Nat.zero_add r.len) (Nat.le_refl _) hd
    hb.engine hb.widthShift hstale
  exact ⟨_, 1, t, heq.trans ht, hsame.trans (congrFun hb.mem _)⟩

end Skip

/-- Every controller's copy is exact just when the bytes at risk had the source's values. -/
theorem copies_exact_iff (r : Request) (s : Entry) :
    (∀ hw fuel t, dmaMemcpyBusyWait hw fuel r.dst r.src r.len s.sys = some t →
      CopyExact r s.sys t) ↔ Harmless r s.sys := by
  constructor
  · intro hall i hi hrisk
    obtain ⟨hw, fuel, t, hrun, hsame⟩ := dmaMemcpyBusyWait_skips r s.idle hi hrisk
    rw [← hsame]
    exact (hall hw fuel t hrun).copied i hi
  · intro h hw fuel t hrun
    exact h.exact s.idle hrun

theorem twoChunks_disjoint :
    ∀ i < 4097, ∀ j < 4097, place 0xC0100000 i ≠ place 0xC0200000 j := by
  intro i hi j hj he
  have hval := congrArg BitVec.toNat he
  simp only [place, BitVec.toNat_add, BitVec.toNat_ofNat, BitVec.reduceToNat] at hval
  omega

/-- Two buffers of one chunk and two bytes, and so of 8 bit width. -/
def twoChunks : Request where
  dst := 0xC0100000
  src := 0xC0200000
  len := 4097
  len_lt := by decide
  disjoint := twoChunks_disjoint

/-- A clean channel, and ones in the source. -/
def cleanEntry : Entry where
  sys := {
    mem := fun a => if a.toNat < 0xC0200000 then 0 else 1
    ch := ⟨0, false, 0, 0, 0, none, 0, 0, false, false⟩
    now := 0
    counts := [] }
  idle := rfl

/-- The first chunk's TC status, late, ends the second. -/
theorem lateTc_skips_chunk :
    ∃ hw fuel t, dmaMemcpyBusyWait hw fuel twoChunks.dst twoChunks.src twoChunks.len
        cleanEntry.sys = some t ∧ ¬ CopyExact twoChunks cleanEntry.sys t := by
  obtain ⟨hw, fuel, t, hrun, hsame⟩ := dmaMemcpyBusyWait_skips twoChunks cleanEntry.idle
    (i := 4095) (by decide) (.inl (by decide))
  refine ⟨hw, fuel, t, hrun, fun hexact => ?_⟩
  have hcopied := hexact.copied 4095 (by decide)
  rw [hsame] at hcopied
  exact absurd hcopied (by decide)

end SnakeOs.Dma.Busy
