import SnakeOs.Dma.BusyWait

namespace SnakeOs.Dma.Busy
open Arch

/-- The i-th byte of a buffer. -/
def place (a : U32) (i : Nat) : U32 := a + BitVec.ofNat 32 i

theorem place_place (a : U32) (i j : Nat) : place (place a i) j = place a (i + j) := by
  rw [place, place, place, BitVec.add_assoc, BitVec.ofNat_add]

theorem place_inj {a : U32} {i j : Nat} (hi : i < 2 ^ 32) (hj : j < 2 ^ 32)
    (h : place a i = place a j) : i = j := by
  have hval := congrArg BitVec.toNat ((BitVec.add_right_inj _).mp h)
  rwa [BitVec.toNat_ofNat, BitVec.toNat_ofNat, Nat.mod_eq_of_lt hi, Nat.mod_eq_of_lt hj] at hval

theorem physToVirt_virtToPhys (x : U32) : physToVirt (virtToPhys x) = x :=
  BitVec.sub_add_cancel x pageOffset

/-- The arguments of `dma_memcpy_busy_wait`: two buffers that do not overlap. -/
structure Request where
  dst : U32
  src : U32
  len : Nat
  len_lt : len < 2 ^ 32
  disjoint : ∀ i < len, ∀ j < len, place dst i ≠ place src j

section Sound

variable (m₀ : U32 → U8) (r : Request)

/-- The i-th byte of the destination is the one the source had at the start. -/
def Done (s : Sys) (i : Nat) : Prop := s.mem (place r.dst i) = m₀ (place r.src i)

def Keeps (s t : Sys) : Prop := ∀ i < r.len, Done m₀ r s i → Done m₀ r t i

/-- The engine works on `n` bytes from `off` on, and those it has copied are done. -/
structure Working (s : Sys) (e : Engine) (off n : Nat) : Prop where
  src : e.src = virtToPhys (place r.src off)
  dst : e.dst = virtToPhys (place r.dst off)
  len : e.len = n
  inside : off + n ≤ r.len
  copied : e.copied ≤ n
  done : ∀ k < e.copied, Done m₀ r s (off + k)

/-- Memory is as at the start but for bytes of the destination that are done, and the engine
works on one of the chunks in `own`. -/
structure Sound (own : Nat → Nat → Prop) (s : Sys) : Prop where
  writes : ∀ a, s.mem a = m₀ a ∨ ∃ i < r.len, a = place r.dst i ∧ s.mem a = m₀ (place r.src i)
  engine : ∀ e ∈ s.ch.engine, ∃ off n, own off n ∧ Working m₀ r s e off n

/-- A TC status, set or to come, is that of a chunk that is done. -/
def Honest (own : Nat → Nat → Prop) (s : Sys) : Prop :=
  s.ch.tcStatus = true ∨ 0 < s.ch.lateTc →
    ∃ off n, own off n ∧ off + n ≤ r.len ∧ ∀ k < n, Done m₀ r s (off + k)

variable {m₀ r} {own : Nat → Nat → Prop}

theorem Keeps.refl (s : Sys) : Keeps m₀ r s s := fun _ _ h => h

theorem Keeps.trans {s t u : Sys} (h : Keeps m₀ r s t) (h' : Keeps m₀ r t u) :
    Keeps m₀ r s u := fun i hi hd => h' i hi (h i hi hd)

theorem Keeps.of_mem {s t : Sys} (h : t.mem = s.mem) : Keeps m₀ r s t := by
  intro i _ hd
  rw [Done, h]
  exact hd

theorem Working.keeps {s t : Sys} {e : Engine} {off n : Nat} (h : Working m₀ r s e off n)
    (hk : Keeps m₀ r s t) : Working m₀ r t e off n := by
  refine ⟨h.src, h.dst, h.len, h.inside, h.copied, fun k hlt => hk _ ?_ (h.done k hlt)⟩
  have hc := h.copied
  have hi := h.inside
  omega

/-- The source is never written. -/
theorem Sound.source {s : Sys} (h : Sound m₀ r own s) {j : Nat} (hj : j < r.len) :
    s.mem (place r.src j) = m₀ (place r.src j) := by
  rcases h.writes (place r.src j) with hm | ⟨i, hi, he, _⟩
  · exact hm
  · exact absurd he.symm (r.disjoint i hi j hj)

/-- Copying one byte of the request. -/
theorem Sound.store {s t : Sys} (h : Sound m₀ r own s) {j : Nat} (hj : j < r.len)
    (ht : t.mem = Function.update s.mem (place r.dst j) (s.mem (place r.src j))) :
    (∀ a, t.mem a = m₀ a ∨ ∃ i < r.len, a = place r.dst i ∧ t.mem a = m₀ (place r.src i)) ∧
      Keeps m₀ r s t ∧ Done m₀ r t j := by
  have hdone : Done m₀ r t j := by
    rw [Done, ht, Function.update_self, h.source hj]
  have hother : ∀ a, a ≠ place r.dst j → t.mem a = s.mem a := by
    intro a ha
    rw [ht, Function.update_of_ne ha]
  refine ⟨fun a => ?_, fun i hi hd => ?_, hdone⟩
  · by_cases ha : a = place r.dst j
    · exact .inr ⟨j, hj, ha, ha ▸ hdone⟩
    · rw [hother a ha]
      exact h.writes a
  · by_cases hij : place r.dst i = place r.dst j
    · have := place_inj (Nat.lt_trans hi r.len_lt) (Nat.lt_trans hj r.len_lt) hij
      subst this
      exact hdone
    · rw [Done, hother _ hij]
      exact hd

theorem Sound.same {s t : Sys} (h : Sound m₀ r own s) (hm : t.mem = s.mem)
    (he : ∀ e ∈ t.ch.engine, e ∈ s.ch.engine) : Sound m₀ r own t := by
  refine ⟨fun a => hm ▸ h.writes a, fun e hmem => ?_⟩
  obtain ⟨off, n, hown, hw⟩ := h.engine e (he e hmem)
  exact ⟨off, n, hown, hw.keeps (Keeps.of_mem hm)⟩

/-- A byte of the chunk is copied. -/
def Sys.copied (s : Sys) (e : Engine) : Sys :=
  { s with mem := Function.update s.mem (physToVirt e.dst + BitVec.ofNat 32 e.copied)
             (s.mem (physToVirt e.src + BitVec.ofNat 32 e.copied))
           ch := { s.ch with engine := some { e with copied := e.copied + 1 } } }

/-- What a move does to memory and to the chunk. -/
theorem move_cases (s : Sys) (m : Move) :
    (∃ e, s.ch.engine = some e ∧ e.copied < e.len ∧ s.move m = s.copied e) ∨
      ((s.move m).mem = s.mem ∧
        ((s.move m).ch.engine = s.ch.engine ∨ (s.move m).ch.engine = none)) := by
  cases m with
  | copy =>
    simp only [Sys.move]
    cases he : s.ch.engine with
    | none => exact .inr ⟨rfl, .inl he⟩
    | some e =>
      dsimp only
      split
      · rename_i hlt
        exact .inl ⟨e, rfl, hlt, rfl⟩
      · exact .inr ⟨rfl, .inl he⟩
  | finish | raiseTc | fail | raiseErr | stop =>
    right
    simp only [Sys.move]
    repeat' split
    all_goals first | exact ⟨rfl, .inl rfl⟩ | exact ⟨rfl, .inr rfl⟩

/-- What a move does to the TC status. -/
theorem move_tc_cases (s : Sys) (m : Move) :
    ((s.move m).ch.tcStatus = s.ch.tcStatus ∧ (s.move m).ch.lateTc = s.ch.lateTc) ∨
      (∃ e, s.ch.engine = some e ∧ e.copied = e.len ∧
        (s.move m).ch.lateTc = s.ch.lateTc + 1) ∨
      (0 < s.ch.lateTc ∧ (s.move m).ch.tcStatus = true) := by
  cases m with
  | finish =>
    simp only [Sys.move]
    cases he : s.ch.engine with
    | none => exact .inl ⟨rfl, rfl⟩
    | some e =>
      dsimp only
      split
      · rename_i hall
        exact .inr (.inl ⟨e, rfl, hall, rfl⟩)
      · exact .inl ⟨rfl, rfl⟩
  | raiseTc =>
    simp only [Sys.move]
    split
    · rename_i hl
      exact .inr (.inr ⟨hl, rfl⟩)
    · exact .inl ⟨rfl, rfl⟩
  | copy | fail | raiseErr | stop =>
    left
    simp only [Sys.move]
    repeat' split
    all_goals exact ⟨rfl, rfl⟩

/-- Whatever the controller does, it copies bytes of its chunk. -/
theorem move_sound {s : Sys} (h : Sound m₀ r own s) (m : Move) :
    Sound m₀ r own (s.move m) ∧ Keeps m₀ r s (s.move m) := by
  rcases move_cases s m with ⟨e, he, hlt, hm⟩ | ⟨hmem, heng⟩
  · rw [hm]
    obtain ⟨off, n, hown, hw⟩ := h.engine e he
    have hin := hw.inside
    have hlen := hw.len
    obtain ⟨hwrites, hkeeps, hdone⟩ := h.store (j := off + e.copied) (by omega)
      (t := s.copied e) (by
        rw [Sys.copied, hw.dst, hw.src, physToVirt_virtToPhys, physToVirt_virtToPhys,
          ← place_place, ← place_place]
        rfl)
    refine ⟨⟨hwrites, fun q hq => ?_⟩, hkeeps⟩
    obtain rfl := Option.some.inj hq
    refine ⟨off, n, hown, hw.src, hw.dst, hlen, hin, by dsimp only; omega, fun k hk => ?_⟩
    rcases Nat.lt_succ_iff_lt_or_eq.mp hk with hk | rfl
    · exact (hw.keeps hkeeps).done k hk
    · exact hdone
  · refine ⟨h.same hmem fun e he => ?_, Keeps.of_mem hmem⟩
    rcases heng with heng | heng
    · exact heng ▸ he
    · rw [heng] at he
      cases he

/-- What only the driver writes. -/
structure Steady (s t : Sys) : Prop where
  counts : t.counts = s.counts
  widthShift : t.ch.widthShift = s.ch.widthShift
  enabled : t.ch.enabled = s.ch.enabled
  srcAddr : t.ch.srcAddr = s.ch.srcAddr
  dstAddr : t.ch.dstAddr = s.ch.dstAddr
  size : t.ch.size = s.ch.size

theorem Steady.refl (s : Sys) : Steady s s := ⟨rfl, rfl, rfl, rfl, rfl, rfl⟩

theorem Steady.trans {s t u : Sys} (h : Steady s t) (h' : Steady t u) : Steady s u :=
  ⟨h'.counts.trans h.counts, h'.widthShift.trans h.widthShift, h'.enabled.trans h.enabled,
    h'.srcAddr.trans h.srcAddr, h'.dstAddr.trans h.dstAddr, h'.size.trans h.size⟩

theorem move_steady (s : Sys) (m : Move) : Steady s (s.move m) := by
  cases m <;> simp only [Sys.move] <;> repeat' split
  all_goals exact ⟨rfl, rfl, rfl, rfl, rfl, rfl⟩

/-- What every move of the controller keeps, an access keeps. -/
theorem access_induct {P : Sys → Prop} (hw : Controller) {s : Sys} (h : P s)
    (hmove : ∀ t m, P t → P (t.move m)) (hnow : ∀ (t : Sys) n, P t → P { t with now := n }) :
    P (access hw s) := by
  have hfold : ∀ (ms : List Move) t, P t → P (ms.foldl Sys.move t) := by
    intro ms
    induction ms with
    | nil => exact fun t ht => ht
    | cons m ms ih => exact fun t ht => ih _ (hmove t m ht)
  exact hnow _ _ (hfold (hw s) s h)

theorem access_steady (hw : Controller) (s : Sys) : Steady s (access hw s) :=
  access_induct (P := fun t => Steady s t) hw (Steady.refl s)
    (fun t m h => h.trans (move_steady t m)) fun _ _ h => ⟨h.counts, h.widthShift, h.enabled,
      h.srcAddr, h.dstAddr, h.size⟩

theorem access_sound {s : Sys} (hw : Controller) (h : Sound m₀ r own s) :
    Sound m₀ r own (access hw s) ∧ Keeps m₀ r s (access hw s) := by
  refine access_induct (P := fun t => Sound m₀ r own t ∧ Keeps m₀ r s t) hw ⟨h, Keeps.refl s⟩ ?_ ?_
  · rintro t m ⟨ht, hk⟩
    obtain ⟨hm, hkm⟩ := move_sound ht m
    exact ⟨hm, hk.trans hkm⟩
  · rintro t n ⟨ht, hk⟩
    exact ⟨ht.same rfl fun _ he => he, hk.trans (Keeps.of_mem rfl)⟩

/-- No chunk is being copied, and no TC status is set or to come. -/
structure Quiet (s : Sys) : Prop where
  engine : s.ch.engine = none
  tcStatus : s.ch.tcStatus = false
  lateTc : s.ch.lateTc = 0

/-- Between chunks the controller writes nothing to memory. -/
theorem move_idle {s : Sys} (h : s.ch.engine = none) (m : Move) :
    (s.move m).ch.engine = none ∧ (s.move m).mem = s.mem := by
  rcases move_cases s m with ⟨e, he, -, -⟩ | ⟨hmem, heng⟩
  · rw [h] at he
    cases he
  · exact ⟨heng.elim (fun heng => heng.trans h) id, hmem⟩

theorem access_idle {s : Sys} (hw : Controller) (h : s.ch.engine = none) :
    (access hw s).ch.engine = none ∧ (access hw s).mem = s.mem := by
  refine access_induct (P := fun t => t.ch.engine = none ∧ t.mem = s.mem) hw ⟨h, rfl⟩ ?_ ?_
  · rintro t m ⟨ht, hm⟩
    obtain ⟨he, hmem⟩ := move_idle ht m
    exact ⟨he, hmem.trans hm⟩
  · exact fun t n ht => ht

theorem move_quiet {s : Sys} (h : Quiet s) (m : Move) : Quiet (s.move m) := by
  have hidle := (move_idle h.engine m).1
  rcases move_tc_cases s m with ⟨htc, hl⟩ | ⟨e, he, -⟩ | ⟨hl, -⟩
  · exact ⟨hidle, htc.trans h.tcStatus, hl.trans h.lateTc⟩
  · rw [h.engine] at he
    cases he
  · rw [h.lateTc] at hl
    exact absurd hl (Nat.lt_irrefl 0)

theorem access_quiet {s : Sys} (hw : Controller) (h : Quiet s) : Quiet (access hw s) :=
  access_induct (P := Quiet) hw h (fun _ m ht => move_quiet ht m)
    fun _ _ ht => ⟨ht.engine, ht.tcStatus, ht.lateTc⟩

theorem Honest.keeps {s t : Sys} (h : Honest m₀ r own s) (hk : Keeps m₀ r s t)
    (hs : t.ch.tcStatus = true ∨ 0 < t.ch.lateTc → s.ch.tcStatus = true ∨ 0 < s.ch.lateTc) :
    Honest m₀ r own t := by
  intro ht
  obtain ⟨off, n, hown, hin, hdone⟩ := h (hs ht)
  exact ⟨off, n, hown, hin, fun k hlt => hk _ (by omega) (hdone k hlt)⟩

/-- A chunk sets its TC status when it is done. -/
theorem move_honest {s : Sys} (hs : Sound m₀ r own s) (h : Honest m₀ r own s) (m : Move) :
    Honest m₀ r own (s.move m) := by
  have hk := (move_sound hs m).2
  rcases move_tc_cases s m with ⟨htc, hl⟩ | ⟨e, he, hall, -⟩ | ⟨hl, -⟩
  · refine h.keeps hk fun hst => ?_
    rwa [htc, hl] at hst
  · intro _
    obtain ⟨off, n, hown, hw⟩ := hs.engine e he
    have hin := hw.inside
    refine ⟨off, n, hown, hin, fun k hlt => hk _ (by omega) (hw.done k ?_)⟩
    rw [hall, hw.len]
    exact hlt
  · exact h.keeps hk fun _ => .inr hl

theorem access_honest {s : Sys} (hw : Controller) (hs : Sound m₀ r own s)
    (h : Honest m₀ r own s) : Honest m₀ r own (access hw s) := by
  have hall := access_induct (P := fun t => Sound m₀ r own t ∧ Honest m₀ r own t) hw ⟨hs, h⟩
    (fun t m ht => ⟨(move_sound ht.1 m).1, move_honest ht.1 ht.2 m⟩)
    fun t n ht => ⟨ht.1.same rfl fun _ he => he, ht.2⟩
  exact hall.2

theorem memcpy_steady (hw : Controller) (dst src : U32) (n : Nat) (s : Sys) :
    Steady s (memcpy hw dst src n s) := by
  induction n with
  | zero => exact Steady.refl s
  | succ n ih =>
    have ha := ih.trans (access_steady hw (memcpy hw dst src n s))
    exact ⟨ha.counts, ha.widthShift, ha.enabled, ha.srcAddr, ha.dstAddr, ha.size⟩

/-- `memcpy` copies its chunk, whatever the engine copies meanwhile. -/
theorem memcpy_sound {s : Sys} (hw : Controller) {off n : Nat} (hin : off + n ≤ r.len)
    (h : Sound m₀ r own s) :
    Sound m₀ r own (memcpy hw (place r.dst off) (place r.src off) n s) ∧
      Keeps m₀ r s (memcpy hw (place r.dst off) (place r.src off) n s) ∧
      ∀ k < n, Done m₀ r (memcpy hw (place r.dst off) (place r.src off) n s) (off + k) := by
  induction n with
  | zero => exact ⟨h, Keeps.refl s, fun k hk => absurd hk (Nat.not_lt_zero k)⟩
  | succ n ih =>
    obtain ⟨hs, hk, hdone⟩ := ih (by omega)
    obtain ⟨has, hak⟩ := access_sound hw hs
    obtain ⟨hwrites, hstore, hlast⟩ := has.store (j := off + n) (by omega)
      (t := memcpy hw (place r.dst off) (place r.src off) (n + 1) s) (by
        rw [← place_place, ← place_place]
        rfl)
    refine ⟨⟨hwrites, fun e he => ?_⟩, hk.trans (hak.trans hstore), fun k hlt => ?_⟩
    · obtain ⟨o, l, hown, hwk⟩ := has.engine e he
      exact ⟨o, l, hown, hwk.keeps hstore⟩
    · rcases Nat.lt_succ_iff_lt_or_eq.mp hlt with hlt | rfl
      · exact hak.trans hstore _ (by omega) (hdone k hlt)
      · exact hlast

/-- What an access keeps holds at the loop's exit, and the first exit has seen the status. -/
theorem pollStatus_induct {P : Sys → Prop} (hw : Controller) (n : Nat) {s : Sys} (h : P s)
    (haccess : ∀ t, P t → P (access hw t)) :
    P (pollStatus hw n s).2 ∧
      ((pollStatus hw n s).1 = .tc → (pollStatus hw n s).2.ch.tcStatus = true) := by
  induction n generalizing s with
  | zero => exact ⟨h, fun htc => by cases htc⟩
  | succ n ih =>
    have h₁ := haccess s h
    have h₂ := haccess _ h₁
    simp only [pollStatus]
    split
    · rename_i hset
      exact ⟨h₁, fun _ => hset⟩
    · split
      · exact ⟨h₂, fun htc => by cases htc⟩
      · exact ih h₂

theorem waitIdle_induct {P : Sys → Prop} (hw : Controller) (n : Nat) {s t : Sys} (h : P s)
    (haccess : ∀ u, P u → P (access hw u)) (hrun : waitIdle hw n s = some t) :
    P t ∧ t.ch.engine = none := by
  induction n generalizing s with
  | zero => cases hrun
  | succ n ih =>
    simp only [waitIdle] at hrun
    split at hrun
    · exact ih (haccess s h) hrun
    · rename_i hbusy
      obtain rfl := Option.some.inj hrun
      exact ⟨haccess s h, by simpa using hbusy⟩

/-- What an access does to the request, as an invariant from `s` on. -/
def Since (m₀ : U32 → U8) (r : Request) (own : Nat → Nat → Prop) (s t : Sys) : Prop :=
  Sound m₀ r own t ∧ Keeps m₀ r s t ∧ t.counts = s.counts ∧ t.ch.widthShift = s.ch.widthShift

theorem Since.refl {s : Sys} (h : Sound m₀ r own s) : Since m₀ r own s s :=
  ⟨h, Keeps.refl s, rfl, rfl⟩

theorem Since.access {s t : Sys} (hw : Controller) (h : Since m₀ r own s t) :
    Since m₀ r own s (access hw t) := by
  obtain ⟨hs, hk, hc, hsh⟩ := h
  obtain ⟨hs', hk'⟩ := access_sound hw hs
  have hst := access_steady hw t
  exact ⟨hs', hk.trans hk', hst.counts.trans hc, hst.widthShift.trans hsh⟩

/-- Writes to the other registers of the controller. -/
theorem Since.set {s t u : Sys} (h : Since m₀ r own s t) (hm : u.mem = t.mem)
    (he : u.ch.engine = t.ch.engine) (hc : u.counts = t.counts)
    (hsh : u.ch.widthShift = t.ch.widthShift) : Since m₀ r own s u :=
  ⟨h.1.same hm fun _ hmem => he ▸ hmem, h.2.1.trans (Keeps.of_mem hm), hc.trans h.2.2.1,
    hsh.trans h.2.2.2⟩

theorem Since.memcpy {s t : Sys} (hw : Controller) {off n : Nat} (hin : off + n ≤ r.len)
    (h : Since m₀ r own s t) :
    Since m₀ r own s (memcpy hw (place r.dst off) (place r.src off) n t) := by
  obtain ⟨hs, hk, hc, hsh⟩ := h
  obtain ⟨hs', hk', -⟩ := memcpy_sound hw hin hs
  have hst := memcpy_steady hw (place r.dst off) (place r.src off) n t
  exact ⟨hs', hk.trans hk', hst.counts.trans hc, hst.widthShift.trans hsh⟩

/-- The engine has just taken up a chunk of `count` units. -/
structure Started (dst src : U32) (count : Nat) (s t : Sys) : Prop where
  mem : t.mem = s.mem
  engine : t.ch.engine = some ⟨virtToPhys src, virtToPhys dst, count <<< s.ch.widthShift, 0⟩
  counts : t.counts = s.counts ++ [count]
  widthShift : t.ch.widthShift = s.ch.widthShift
  enabled : t.ch.enabled = true

theorem start_spec (hw : Controller) (dst src : U32) (count : Nat) {s : Sys}
    (h : s.ch.engine = none) :
    Started dst src count s (enable hw (writeRegs hw dst src count s)) := by
  simp only [enable, writeRegs]
  have h₁ := access_steady hw s
  obtain ⟨e₁, m₁⟩ := access_idle hw h
  generalize access hw s = s₁ at *
  have h₂ := access_steady hw { s₁ with ch := { s₁.ch with srcAddr := virtToPhys src } }
  obtain ⟨e₂, m₂⟩ := access_idle hw
    (s := { s₁ with ch := { s₁.ch with srcAddr := virtToPhys src } }) e₁
  generalize access hw { s₁ with ch := { s₁.ch with srcAddr := virtToPhys src } } = s₂ at *
  have h₃ := access_steady hw { s₂ with ch := { s₂.ch with dstAddr := virtToPhys dst } }
  obtain ⟨e₃, m₃⟩ := access_idle hw
    (s := { s₂ with ch := { s₂.ch with dstAddr := virtToPhys dst } }) e₂
  generalize access hw { s₂ with ch := { s₂.ch with dstAddr := virtToPhys dst } } = s₃ at *
  have h₄ := access_steady hw
    { s₃ with ch := { s₃.ch with size := count }, counts := s₃.counts ++ [count] }
  obtain ⟨e₄, m₄⟩ := access_idle hw
    (s := { s₃ with ch := { s₃.ch with size := count }, counts := s₃.counts ++ [count] }) e₃
  generalize access hw
    { s₃ with ch := { s₃.ch with size := count }, counts := s₃.counts ++ [count] } = s₄ at *
  have hsh : s₄.ch.widthShift = s.ch.widthShift :=
    h₄.widthShift.trans (h₃.widthShift.trans (h₂.widthShift.trans h₁.widthShift))
  refine ⟨m₄.trans (m₃.trans (m₂.trans m₁)), ?_, ?_, hsh, rfl⟩
  · rw [h₄.srcAddr, h₄.dstAddr, h₄.size, h₃.srcAddr, h₃.dstAddr, h₂.srcAddr, hsh]
  · rw [h₄.counts, h₃.counts, h₂.counts, h₁.counts]

/-- What an access keeps, and the driver's registers do not touch, holds when they are set. -/
theorem writeRegs_induct {P : Sys → Prop} (hw : Controller) (dst src : U32) (count : Nat)
    {s : Sys} (h : P s) (haccess : ∀ t, P t → P (access hw t))
    (hset : ∀ (t : Sys) ch counts, ch.engine = t.ch.engine → ch.tcStatus = t.ch.tcStatus →
      ch.lateTc = t.ch.lateTc → P t → P { t with ch := ch, counts := counts }) :
    P (writeRegs hw dst src count s) := by
  refine hset (access hw _) _ _ rfl rfl rfl (haccess _ ?_)
  refine hset (access hw _) _ _ rfl rfl rfl (haccess _ ?_)
  exact hset (access hw _) _ _ rfl rfl rfl (haccess _ h)

theorem start_quiet (hw : Controller) (dst src : U32) (count : Nat) {s : Sys} (h : Quiet s) :
    (enable hw (writeRegs hw dst src count s)).ch.tcStatus = false ∧
      (enable hw (writeRegs hw dst src count s)).ch.lateTc = 0 := by
  have hregs : Quiet (writeRegs hw dst src count s) := by
    refine writeRegs_induct hw dst src count h (fun _ => access_quiet hw) ?_
    intro t ch counts he htc hl ht
    exact ⟨he.trans ht.engine, htc.trans ht.tcStatus, hl.trans ht.lateTc⟩
  have hq := access_quiet hw hregs
  exact ⟨hq.tcStatus, hq.lateTc⟩

/-- A started chunk keeps the request's bytes, and works on its own. -/
theorem Started.sound {s t : Sys} {off n count : Nat}
    (h : Started (place r.dst off) (place r.src off) count s t) (hs : Sound m₀ r own s)
    (hown : own off n) (hin : off + n ≤ r.len) (hn : count <<< s.ch.widthShift = n) :
    Sound m₀ r own t := by
  refine ⟨fun a => h.mem ▸ hs.writes a, fun e he => ?_⟩
  rw [h.engine] at he
  obtain rfl := Option.some.inj he
  exact ⟨off, n, hown, rfl, rfl, hn, hin, Nat.zero_le n, fun k hk => absurd hk (Nat.not_lt_zero k)⟩

/-- One chunk: it copies bytes of the request only, and writes its count. -/
theorem dmaCopyBusyWait_sound {hw : Controller} {fuel off n sh : Nat} {s t : Sys}
    (h : Sound m₀ r own s) (hown : own off n) (hin : off + n ≤ r.len)
    (hn : n >>> sh <<< sh = n) (hsh : s.ch.widthShift = sh)
    (hrun : dmaCopyBusyWait hw fuel (place r.dst off) (place r.src off) n sh s = some t) :
    Sound m₀ r own t ∧ Keeps m₀ r s t ∧ t.counts = s.counts ++ [n >>> sh] ∧
      t.ch.widthShift = sh := by
  obtain ⟨s₁, hwait, rfl⟩ := Option.map_eq_some_iff.mp hrun
  obtain ⟨⟨hs₁, hk₁, hc₁, hsh₁⟩, hidle⟩ := waitIdle_induct (P := Since m₀ r own s) hw fuel
    (Since.refl h) (fun _ hu => hu.access hw) hwait
  have hst := start_spec hw (place r.dst off) (place r.src off) (n >>> sh) hidle
  have hs₂ := hst.sound hs₁ hown hin (by rw [hsh₁, hsh, hn])
  have hpoll := (pollStatus_induct (P := Since m₀ r own _) hw dmaCopyBusyWaitLoop
    (Since.refl hs₂) (fun _ hu => hu.access hw)).1
  have hdis := (hpoll.access hw).set (u := disable hw _) rfl rfl rfl rfl
  suffices hend : Since m₀ r own (enable hw (writeRegs hw (place r.dst off) (place r.src off)
      (n >>> sh) s₁)) _ by
    obtain ⟨hs₃, hk₃, hc₃, hsh₃⟩ := hend
    refine ⟨hs₃, hk₁.trans ((Keeps.of_mem hst.mem).trans hk₃), ?_, ?_⟩
    · rw [hc₃, hst.counts, hc₁]
    · rw [hsh₃, hst.widthShift, hsh₁, hsh]
  dsimp only
  split
  · rw [hn]
    exact ((hdis.access hw).set (u := clearErr hw _) rfl rfl rfl rfl).memcpy hw hin
  · rw [hn]
    exact hdis.memcpy hw hin
  · exact (hdis.access hw).set rfl rfl rfl rfl

/-- One chunk on a channel with no status left over: all of it is copied. -/
theorem dmaCopyBusyWait_done {hw : Controller} {fuel off n sh : Nat} {s t : Sys}
    (h : Sound m₀ r own s) (hq : Quiet s) (hin : off + n ≤ r.len)
    (hn : n >>> sh <<< sh = n) (hsh : s.ch.widthShift = sh)
    (hrun : dmaCopyBusyWait hw fuel (place r.dst off) (place r.src off) n sh s = some t) :
    ∀ k < n, Done m₀ r t (off + k) := by
  -- the chunk is the only one the engine can be at
  let this : Nat → Nat → Prop := fun o l => o = off ∧ l = n
  obtain ⟨s₁, hwait, rfl⟩ := Option.map_eq_some_iff.mp hrun
  obtain ⟨hq₁, -⟩ := waitIdle_induct (P := Quiet) hw fuel hq (fun _ hu => access_quiet hw hu) hwait
  obtain ⟨⟨hs₁, -, -, hsh₁⟩, -⟩ := waitIdle_induct (P := Since m₀ r own s) hw fuel
    (Since.refl h) (fun _ hu => hu.access hw) hwait
  have hst := start_spec hw (place r.dst off) (place r.src off) (n >>> sh) hq₁.engine
  have hs₁' : Sound m₀ r this s₁ := by
    refine ⟨hs₁.writes, fun e he => ?_⟩
    rw [hq₁.engine] at he
    cases he
  have hs₂ := hst.sound hs₁' ⟨rfl, rfl⟩ hin (by rw [hsh₁, hsh, hn])
  obtain ⟨htc₂, hl₂⟩ := start_quiet hw (place r.dst off) (place r.src off) (n >>> sh) hq₁
  have hon₂ : Honest m₀ r this (enable hw (writeRegs hw (place r.dst off) (place r.src off)
      (n >>> sh) s₁)) := by
    rintro (htc | hl)
    · rw [htc₂] at htc
      cases htc
    · omega
  obtain ⟨⟨hs₃, hon₃⟩, hseen⟩ := pollStatus_induct
    (P := fun u => Sound m₀ r this u ∧ Honest m₀ r this u) hw dmaCopyBusyWaitLoop ⟨hs₂, hon₂⟩
    (fun _ hu => ⟨(access_sound hw hu.1).1, access_honest hw hu.1 hu.2⟩)
  have hdis := ((Since.refl hs₃).access hw).set (u := disable hw _) rfl rfl rfl rfl
  intro k hk
  dsimp only
  split
  · rw [hn]
    have hclr := (hdis.access hw).set (u := clearErr hw _) rfl rfl rfl rfl
    exact (memcpy_sound hw hin hclr.1).2.2 k hk
  · rw [hn]
    exact (memcpy_sound hw hin hdis.1).2.2 k hk
  · rename_i htc
    obtain ⟨o, l, ⟨rfl, rfl⟩, -, hdone⟩ := hon₃ (.inl (hseen htc))
    have hclr := (hdis.access hw).set (u := clearTc hw _) rfl rfl rfl rfl
    exact hclr.2.1 _ (by omega) (hdone k hk)

end Sound

end SnakeOs.Dma.Busy
