import Mathlib.Logic.Function.Basic
import SnakeOs.Lib.Runs
import Mathlib.Tactic.Common

namespace SnakeOs.Nic
open Lib

/-- The interrupts of the NIC, by their `INTC_NIC_*_BIT_INDEX`. -/
inductive NicIrq
  | rxrc
  | rxqf
  | status
deriving DecidableEq, Repr

/-- `install_isr_account`, the handlers the kernel has, each `free_irq` so far with
whether there was a handler to free, and whether the device is up. -/
structure Isr where
  account : Int
  registered : NicIrq → Bool
  freed : List (NicIrq × Bool)
  up : Bool

def isrInit : Isr := ⟨0, fun _ => false, [], false⟩

/-- `request_irq`, which the kernel answers with `grant`. -/
def requestIrq (irq : NicIrq) (grant : Bool) (s : Isr) : Int × Isr :=
  if grant then (0, { s with registered := Function.update s.registered irq true })
  else (-1, s)

def freeIrq (irq : NicIrq) (s : Isr) : Isr :=
  { s with registered := Function.update s.registered irq false,
           freed := s.freed ++ [(irq, s.registered irq)] }

/-- `star_nic_uninstall_isr`. -/
def starNicUninstallIsr (s : Isr) : Isr :=
  let s := { s with account := s.account - 1 }
  if s.account = 0 then freeIrq .status (freeIrq .rxqf (freeIrq .rxrc s)) else s

/-- `star_nic_install_isr`, returning the number of the request that failed. -/
def starNicInstallIsr (grants : NicIrq → Bool) (s : Isr) : Nat × Isr :=
  let installed := fun s : Isr => (0, { s with account := s.account + 1 })
  if s.account = 0 then
    let r := requestIrq .rxrc (grants .rxrc) s
    if r.1 ≠ 0 then (1, r.2)
    else
      let r := requestIrq .rxqf (grants .rxqf) r.2
      if r.1 ≠ 0 then (2, r.2)
      else
        let r := requestIrq .status (grants .status) r.2
        if r.1 ≠ 0 then (3, r.2) else installed r.2
  else installed s

/-- `star_nic_lan_open`: what the installation returns is not looked at. -/
def starNicLanOpen (grants : NicIrq → Bool) (s : Isr) : Int × Isr :=
  (0, (starNicInstallIsr grants s).2)

/-- `star_nic_close`. -/
def starNicClose (s : Isr) : Int × Isr := (0, starNicUninstallIsr s)

inductive IsrAct
  | lanOpen (grants : NicIrq → Bool)
  | close

/-- The kernel opens a device that is down, and it is up if that returns 0; it closes
one that is up. -/
def isrStep (s : Isr) : IsrAct → Option Isr
  | .lanOpen grants =>
    if s.up then none
    else
      let r := starNicLanOpen grants s
      some { r.2 with up := r.1 = 0 }
  | .close => if s.up then some { (starNicClose s).2 with up := false } else none

/-- The handlers are there while the device is up and only then, the account is their
use count, and nothing is freed that is not there. -/
structure IsrSound (s : Isr) : Prop where
  up : s.up = true → s.account = 1 ∧ ∀ irq, s.registered irq = true
  down : s.up = false → s.account = 0 ∧ ∀ irq, s.registered irq = false
  freed : ∀ f ∈ s.freed, f.2 = true

/-- Every request the call makes is granted. -/
def Granted (_ : Isr) : IsrAct → Prop
  | .lanOpen grants => ∀ irq, grants irq = true
  | .close => True

theorem forall_irq {P : NicIrq → Prop} : (∀ irq, P irq) ↔ P .rxrc ∧ P .rxqf ∧ P .status := by
  refine ⟨fun h => ⟨h .rxrc, h .rxqf, h .status⟩, fun h irq => ?_⟩
  obtain ⟨hr, hq, hs⟩ := h
  cases irq with
  | rxrc => exact hr
  | rxqf => exact hq
  | status => exact hs

instance (s : Isr) : (a : IsrAct) → Decidable (Granted s a)
  | .lanOpen _ => decidable_of_iff _ forall_irq.symm
  | .close => .isTrue trivial

/-- An installation from an account of 0 succeeds exactly when every request does, and is
counted only then. -/
theorem install_spec {s : Isr} (grants : NicIrq → Bool) (h : s.account = 0) :
    ((∀ irq, grants irq = true) → (starNicInstallIsr grants s).2.account = 1 ∧
        ∀ irq, (starNicInstallIsr grants s).2.registered irq = true) ∧
      (¬(∀ irq, grants irq = true) → (starNicInstallIsr grants s).2.account = 0) ∧
      (starNicInstallIsr grants s).2.freed = s.freed := by
  rw [forall_irq, forall_irq]
  cases hrc : grants .rxrc with
  | false => simp [starNicInstallIsr, requestIrq, h, hrc]
  | true =>
    cases hqf : grants .rxqf with
    | false => simp [starNicInstallIsr, requestIrq, h, hrc, hqf]
    | true =>
      cases hst : grants .status <;> simp [starNicInstallIsr, requestIrq, h, hrc, hqf, hst]

theorem uninstall_spec {s : Isr} (h : s.account = 1) (hr : ∀ irq, s.registered irq = true) :
    (starNicUninstallIsr s).account = 0 ∧ (∀ irq, (starNicUninstallIsr s).registered irq = false) ∧
      ∀ f ∈ (starNicUninstallIsr s).freed, f ∈ s.freed ∨ f.2 = true := by
  rw [forall_irq]
  refine ⟨by simp [starNicUninstallIsr, freeIrq, h], ?_, fun f hf => ?_⟩
  · simp [starNicUninstallIsr, freeIrq, h]
  · simp only [starNicUninstallIsr, freeIrq, h, hr, Int.sub_self, if_true, List.append_assoc] at hf
    -- an update of one interrupt leaves the others to be found registered
    rcases List.mem_append.mp hf with hf | hf
    · exact .inl hf
    · right
      simp only [List.cons_append, List.nil_append, List.mem_cons, List.not_mem_nil, or_false] at hf
      rcases hf with rfl | rfl | rfl
      · rfl
      · exact hr .rxqf
      · exact hr .status

/-- An open keeps the device sound exactly when its requests are granted. -/
theorem open_sound_iff {s t : Isr} {grants : NicIrq → Bool} (h : IsrSound s)
    (ht : isrStep s (.lanOpen grants) = some t) : IsrSound t ↔ ∀ irq, grants irq = true := by
  simp only [isrStep] at ht
  split at ht
  · cases ht
  · rename_i hup
    obtain rfl := Option.some.inj ht
    obtain ⟨hacc, -⟩ := h.down (by simpa using hup)
    obtain ⟨hok, hno, hfreed⟩ := install_spec grants hacc
    constructor
    · intro hsound
      by_contra hnot
      have hone : (starNicInstallIsr grants s).2.account = 1 := (hsound.up rfl).1
      rw [hno hnot] at hone
      cases hone
    · intro hall
      refine ⟨fun _ => hok hall, fun hdown => (by cases hdown), fun f hf => h.freed f ?_⟩
      rwa [← hfreed]

theorem close_sound {s t : Isr} (h : IsrSound s) (ht : isrStep s .close = some t) : IsrSound t := by
  simp only [isrStep] at ht
  split at ht
  · rename_i hup
    obtain rfl := Option.some.inj ht
    obtain ⟨hacc, hreg⟩ := h.up hup
    obtain ⟨hzero, hnone, hfreed⟩ := uninstall_spec hacc hreg
    refine ⟨fun h' => (by cases h'), fun _ => ⟨hzero, hnone⟩, fun f hf => ?_⟩
    rcases hfreed f hf with hf | hf
    · exact h.freed f hf
    · exact hf
  · cases ht

/-- In every run of opens and closes whose requests are all granted the device is sound, and
it stays so at the next open exactly when the requests of that open are granted. -/
theorem registration_sound {s : Isr} (h : Reach isrStep Granted isrInit s) :
    IsrSound s ∧ ∀ grants t, isrStep s (.lanOpen grants) = some t →
      (IsrSound t ↔ Granted s (.lanOpen grants)) := by
  have hs : IsrSound s := by
    refine h.invariant ⟨fun h' => (by cases h'), fun _ => ⟨rfl, fun _ => rfl⟩, by simp [isrInit]⟩
      fun u a t hu hok ht => ?_
    cases a with
    | lanOpen grants => exact (open_sound_iff hu ht).mpr hok
    | close => exact close_sound hu ht
  exact ⟨hs, fun grants t ht => open_sound_iff hs ht⟩

theorem reopened_sound : ∃ s,
    run isrStep Granted [.lanOpen fun _ => true, .close, .lanOpen fun _ => true] isrInit = some s ∧
      s.up = true ∧ IsrSound s := by
  refine ⟨_, rfl, rfl, (registration_sound ?_).1⟩
  exact Reach.start.run [.lanOpen fun _ => true, .close, .lanOpen fun _ => true] rfl

/-- The second request of the first open is refused, and the device is closed and opened
again with every request granted. -/
def refusedOnce : List IsrAct :=
  [.lanOpen fun irq => irq != .rxqf, .close, .lanOpen fun _ => true]

/-- The device is up with an account of 0 and two of its interrupts missing. -/
theorem refused_once_unsound : ∃ s, run isrStep anyStep refusedOnce isrInit = some s ∧
    Reach isrStep anyStep isrInit s ∧ s.up = true ∧ s.account = 0 ∧ s.registered .rxrc = true ∧
      s.registered .rxqf = false ∧ ¬IsrSound s := by
  have hrun : ∃ s, run isrStep anyStep refusedOnce isrInit = some s ∧ s.up = true ∧
      s.account = 0 ∧ s.registered .rxrc = true ∧ s.registered .rxqf = false :=
    ⟨_, rfl, rfl, rfl, rfl, rfl⟩
  obtain ⟨s, hs, hup, hacc, hrc, hqf⟩ := hrun
  refine ⟨s, hs, Reach.start.run refusedOnce hs, hup, hacc, hrc, hqf, fun hsound => ?_⟩
  rw [(hsound.up hup).2 .rxqf] at hqf
  cases hqf

end SnakeOs.Nic
