import SnakeOs.Lib.Runs
import SnakeOs.Spi.Messages

namespace SnakeOs.Spi
open Lib

/-- Where the workqueue's thread stands: waiting, the work off the worklist and still marked
pending, at the lock of `bitbang_work`, with a message off the queue, at the loop's next test,
and returned from the work. -/
inductive Worker where
  | idle
  | taken
  | entered
  | running (m : SpiMessage)
  | looking
  | leaving

/-- Where `spi_bitbang_stop` stands. `seen` counts the messages queued when it found the
queue empty, `needed` is the `sequence_needed` of the flush. -/
inductive Stop where
  | notCalled
  | waiting (limit : Nat)
  | checking
  | emptied (seen : Nat)
  | flushing (seen needed : Nat)
  | halting (seen : Nat)
  | busy
  | destroyed (seen : Nat)

/-- `struct spi_bitbang` with its one work item and the workqueue, the calls of
`spi_bitbang_transfer` that have passed its test, and what was queued, completed and refused.
`bug` is the `BUG_ON` of `queue_work`. -/
structure Master where
  shutdown : Bool
  busy : Bool
  queue : List SpiMessage
  pending : Bool
  worklist : Bool
  insertSequence : Nat
  removeSequence : Nat
  worker : Worker
  stop : Stop
  bus : Bus
  callers : List SpiMessage
  accepted : List SpiMessage
  completed : List (SpiMessage × Completed)
  refused : List SpiMessage
  bug : Bool

/-- After `spi_bitbang_start`, the structure being zeroed before. -/
def Master.start (b : Bus) : Master :=
  ⟨false, false, [], false, false, 0, 0, .idle, .notCalled, b, [], [], [], [], false⟩

/-- The head of `spi_bitbang_transfer`, outside of the lock. -/
def Master.transfer (s : Master) (m : SpiMessage) : Master :=
  if s.shutdown then { s with refused := s.refused ++ [m] }
  else { s with callers := s.callers ++ [m] }

def Master.queueWork (s : Master) : Master :=
  if s.pending then s
  else { s with pending := true, worklist := true, insertSequence := s.insertSequence + 1,
                bug := s.bug || s.worklist }

/-- The locked part of `spi_bitbang_transfer`. -/
def Master.enqueue (s : Master) (m : SpiMessage) : Master :=
  { s with queue := s.queue ++ [m], accepted := s.accepted ++ [m] }.queueWork

/-- `while (!list_empty(&bitbang->queue))` under the lock. -/
def Master.pick (s : Master) : Master :=
  match s.queue with
  | [] => { s with busy := false, worker := .leaving }
  | m :: queue => { s with queue, worker := .running m }

/-- The next step of the workqueue's thread. -/
def Master.work (w : Slave) (apbClock : Nat) (s : Master) : Option Master :=
  match s.worker with
  | .idle => if s.worklist then some { s with worklist := false, worker := .taken } else none
  | .taken => some { s with pending := false, worker := .entered }
  | .entered => some { s with busy := true }.pick
  | .running m =>
    let r := runMessage w apbClock s.shutdown m s.bus
    some { s with bus := r.2, completed := s.completed ++ [(m, r.1)], worker := .looking }
  | .looking => some s.pick
  | .leaving => some { s with removeSequence := s.removeSequence + 1, worker := .idle }

/-- The next step of `spi_bitbang_stop` and of the `destroy_workqueue` it calls. -/
def Master.stopping (s : Master) : Option Master :=
  match s.stop with
  | .notCalled | .busy => some { s with shutdown := false, stop := .waiting 500 }
  | .waiting limit =>
    if s.queue ≠ [] ∧ limit ≠ 0 then some { s with stop := .waiting (limit - 1) }
    else some { s with stop := .checking }
  | .checking =>
    if s.queue ≠ [] then some { s with stop := .busy }
    else some { s with stop := .emptied s.accepted.length }
  | .emptied seen => some { s with stop := .flushing seen s.insertSequence }
  | .flushing seen needed =>
    if needed > s.removeSequence then none else some { s with stop := .halting seen }
  | .halting seen =>
    match s.worker with
    | .idle => some { s with stop := .destroyed seen }
    | _ => none
  | .destroyed _ => none

/-- A call of `spi_bitbang_transfer` begins, the `i`-th one goes on, or the thread or
`spi_bitbang_stop` takes its next step. -/
inductive Act where
  | transfer (m : SpiMessage)
  | enqueue (i : Nat)
  | work
  | stop

/-- Any step at any time. What `queue_work` does to a destroyed workqueue is not followed. -/
def Master.step (w : Slave) (apbClock : Nat) (s : Master) : Act → Option Master
  | .transfer m => some (s.transfer m)
  | .enqueue i =>
    match s.stop, s.callers[i]? with
    | .destroyed _, _ => none
    | _, none => none
    | _, some m => some ({ s with callers := s.callers.eraseIdx i }.enqueue m)
  | .work =>
    match s.stop with
    | .destroyed _ => none
    | _ => s.work w apbClock
  | .stop => s.stopping

/-- The message off the queue and not completed. -/
def Worker.current : Worker → List SpiMessage
  | .running m => [m]
  | _ => []

/-- `bitbang_work` has yet to look at the queue. -/
def Worker.WillLook : Worker → Prop
  | .idle | .leaving => False
  | _ => True

/-- The work items inserted and not removed. -/
def Master.outstanding (s : Master) : Nat :=
  s.worklist.toNat + match s.worker with | .idle => 0 | _ => 1

/-- What `spi_bitbang_stop` knows of the messages queued before it looked. -/
def Master.Stopped (s : Master) : Prop :=
  match s.stop with
  | .emptied seen => seen ≤ s.completed.length + s.worker.current.length
  | .flushing seen needed => seen ≤ s.completed.length ∨
    seen ≤ s.completed.length + s.worker.current.length ∧ s.removeSequence < needed
  | .halting seen => seen ≤ s.completed.length
  | .destroyed seen => seen ≤ s.completed.length
  | _ => True

/-- What every step keeps. -/
structure Master.Sound (w : Slave) (apbClock : Nat) (b : Bus) (s : Master) : Prop where
  serving : s.shutdown = false
  refused : s.refused = []
  bug : s.bug = false
  pending : s.pending = true ↔ s.worklist = true ∨ s.worker = .taken
  taken : s.worker = .taken → s.worklist = false
  woken : s.queue ≠ [] → s.worklist = true ∨ s.worker.WillLook
  sequence : s.insertSequence = s.removeSequence + s.outstanding
  order : s.accepted = s.completed.map (·.1) ++ s.worker.current ++ s.queue
  results : (s.completed.map (·.2), s.bus) =
    bitbangWork w apbClock false (s.completed.map (·.1)) b
  stopped : s.Stopped

theorem bitbangWork_append (w : Slave) (apbClock : Nat) (shutdown : Bool)
    (xs ys : List SpiMessage) (b : Bus) : bitbangWork w apbClock shutdown (xs ++ ys) b =
      let r := bitbangWork w apbClock shutdown xs b
      let q := bitbangWork w apbClock shutdown ys r.2
      (r.1 ++ q.1, q.2) := by
  induction xs generalizing b with
  | nil => rfl
  | cons m xs ih => simp only [List.cons_append, bitbangWork, ih]

theorem start_sound (w : Slave) (apbClock : Nat) (b : Bus) :
    (Master.start b).Sound w apbClock b where
  serving := rfl
  refused := rfl
  bug := rfl
  pending := by simp [Master.start]
  taken := fun h => absurd h (by simp [Master.start])
  woken := fun h => absurd rfl h
  sequence := rfl
  order := rfl
  results := rfl
  stopped := trivial

variable {w : Slave} {apbClock : Nat} {b : Bus} {s : Master}

theorem transfer_sound (h : s.Sound w apbClock b) (m : SpiMessage) :
    (s.transfer m).Sound w apbClock b := by
  have htransfer : s.transfer m = { s with callers := s.callers ++ [m] } :=
    if_neg (by rw [h.serving]; exact Bool.false_ne_true)
  rw [htransfer]
  exact ⟨h.serving, h.refused, h.bug, h.pending, h.taken, h.woken, h.sequence, h.order, h.results,
    h.stopped⟩

theorem enqueue_pending (hp : s.pending = true) (m : SpiMessage) (callers : List SpiMessage) :
    { s with callers }.enqueue m =
      { s with callers, queue := s.queue ++ [m], accepted := s.accepted ++ [m] } := if_pos hp

theorem enqueue_waking (hp : s.pending = false) (m : SpiMessage) (callers : List SpiMessage) :
    { s with callers }.enqueue m =
      { s with
        callers, queue := s.queue ++ [m], accepted := s.accepted ++ [m], pending := true,
        worklist := true, insertSequence := s.insertSequence + 1, bug := s.bug || s.worklist } :=
  if_neg (by rw [hp]; exact Bool.false_ne_true)

/-- A message queued while the work is pending will be seen by it, any other queues the work. -/
theorem enqueue_sound (h : s.Sound w apbClock b) (m : SpiMessage) (callers : List SpiMessage) :
    ({ s with callers }.enqueue m).Sound w apbClock b := by
  have horder : s.accepted ++ [m] =
      s.completed.map (·.1) ++ s.worker.current ++ (s.queue ++ [m]) := by
    rw [h.order, List.append_assoc]
  by_cases hp : s.pending = true
  · rw [enqueue_pending hp]
    refine ⟨h.serving, h.refused, h.bug, h.pending, h.taken, fun _ => ?_, h.sequence, horder,
      h.results, h.stopped⟩
    rcases h.pending.mp hp with hl | ht
    · exact .inl hl
    · exact .inr (ht ▸ trivial)
  · have hnot : ¬ (s.worklist = true ∨ s.worker = .taken) := mt h.pending.mpr hp
    have hl : s.worklist = false := Bool.eq_false_iff.mpr fun hl => hnot (.inl hl)
    rw [enqueue_waking (Bool.eq_false_iff.mpr hp)]
    refine ⟨h.serving, h.refused, ?_, ?_, fun ht => absurd (.inr ht) hnot, fun _ => .inl rfl, ?_,
      horder, h.results, h.stopped⟩
    · exact (congrArg₂ or h.bug hl)
    · exact ⟨fun _ => .inl rfl, fun _ => rfl⟩
    · have hseq := h.sequence
      simp only [Master.outstanding, hl, Bool.toNat_false, Bool.toNat_true] at hseq ⊢
      omega

/-- A step of the thread forgets no message, and does not go on while it has one. -/
theorem Master.Stopped.keep {t : Master} (h : s.Stopped) (hs : t.stop = s.stop)
    (hc : s.completed.length ≤ t.completed.length)
    (hm : s.completed.length + s.worker.current.length ≤
      t.completed.length + t.worker.current.length)
    (hr : t.removeSequence = s.removeSequence ∨ s.worker.current = []) : t.Stopped := by
  unfold Master.Stopped at h ⊢
  rw [hs]
  cases hstop : s.stop with
  | notCalled => trivial
  | waiting limit => trivial
  | checking => trivial
  | busy => trivial
  | emptied seen =>
    rw [hstop] at h
    exact Nat.le_trans h hm
  | flushing seen needed =>
    rw [hstop] at h
    rcases h with h | ⟨h, hn⟩
    · exact .inl (Nat.le_trans h hc)
    · rcases hr with hr | hr
      · exact .inr ⟨Nat.le_trans h hm, hr ▸ hn⟩
      · rw [hr, List.length_nil, Nat.add_zero] at h
        exact .inl (Nat.le_trans h hc)
  | halting seen =>
    rw [hstop] at h
    exact Nat.le_trans h hc
  | destroyed seen =>
    rw [hstop] at h
    exact Nat.le_trans h hc

/-- Without a message off the queue only `completed` and `stop` matter. -/
theorem Master.Stopped.keep_blank {t : Master} (h : s.Stopped) (hcurrent : s.worker.current = [])
    (hs : t.stop = s.stop) (hc : t.completed = s.completed) : t.Stopped := by
  refine h.keep hs (Nat.le_of_eq (congrArg List.length hc.symm)) ?_ (.inr hcurrent)
  rw [hcurrent, hc]
  exact Nat.le_add_right ..

/-- Off the worklist the work is pending only until its function is called. -/
theorem Master.Sound.pending_iff (h : s.Sound w apbClock b) (hw : s.worker ≠ .taken) :
    s.pending = true ↔ s.worklist = true :=
  h.pending.trans (or_iff_left hw)

theorem pick_nil (hq : s.queue = []) (busy : Bool) :
    { s with busy }.pick = { s with busy := false, worker := .leaving } := by
  simp only [Master.pick, hq]

theorem pick_cons {m : SpiMessage} {queue : List SpiMessage} (hq : s.queue = m :: queue)
    (busy : Bool) : { s with busy }.pick = { s with busy, queue, worker := .running m } := by
  simp only [Master.pick, hq]

/-- The loop's test, by a thread that is in the work and has no message. -/
theorem pick_sound (h : s.Sound w apbClock b) (hlook : s.worker = .entered ∨ s.worker = .looking)
    (busy : Bool) : ({ s with busy }.pick).Sound w apbClock b := by
  have hcurrent : s.worker.current = [] := by rcases hlook with hl | hl <;> rw [hl] <;> rfl
  have htaken : s.worker ≠ .taken := by rcases hlook with hl | hl <;> rw [hl] <;> exact nofun
  have hseq : s.insertSequence = s.removeSequence + (s.worklist.toNat + 1) := by
    have hseq := h.sequence
    rcases hlook with hl | hl <;> simpa only [Master.outstanding, hl] using hseq
  have hpending := h.pending_iff htaken
  have horder := h.order
  rw [hcurrent, List.append_nil] at horder
  by_cases hq : s.queue = []
  · rw [pick_nil hq]
    rw [hq, List.append_nil] at horder
    refine ⟨h.serving, h.refused, h.bug, ?_, nofun, fun hne => absurd hq hne, hseq, ?_, h.results,
      h.stopped.keep_blank hcurrent rfl rfl⟩
    · exact hpending.trans (or_iff_left nofun).symm
    · rw [hq, List.append_nil]
      exact horder.trans (List.append_nil _).symm
  · obtain ⟨m, queue, hq⟩ := List.exists_cons_of_ne_nil hq
    rw [pick_cons hq]
    rw [hq] at horder
    refine ⟨h.serving, h.refused, h.bug, ?_, nofun, fun _ => .inr trivial, hseq, ?_, h.results,
      h.stopped.keep_blank hcurrent rfl rfl⟩
    · exact hpending.trans (or_iff_left nofun).symm
    · exact horder.trans (List.append_assoc _ [m] queue).symm

theorem take_sound (h : s.Sound w apbClock b) (hw : s.worker = .idle) (hl : s.worklist = true) :
    ({ s with worklist := false, worker := .taken } : Master).Sound w apbClock b := by
  have hcurrent : s.worker.current = [] := hw ▸ rfl
  have horder := h.order
  have hseq := h.sequence
  rw [hcurrent] at horder
  simp only [Master.outstanding, hw, hl, Bool.toNat_true] at hseq
  refine ⟨h.serving, h.refused, h.bug, ⟨fun _ => .inr rfl, fun _ => h.pending.mpr (.inl hl)⟩,
    fun _ => rfl, fun _ => .inr trivial, hseq, horder, h.results, ?_⟩
  exact h.stopped.keep_blank hcurrent rfl rfl

theorem clear_sound (h : s.Sound w apbClock b) (hw : s.worker = .taken) :
    ({ s with pending := false, worker := .entered } : Master).Sound w apbClock b := by
  have hcurrent : s.worker.current = [] := hw ▸ rfl
  have hl : s.worklist = false := h.taken hw
  have horder := h.order
  have hseq := h.sequence
  rw [hcurrent] at horder
  simp only [Master.outstanding, hw] at hseq
  refine ⟨h.serving, h.refused, h.bug, ⟨nofun, fun hor => ?_⟩, nofun, fun _ => .inr trivial, hseq,
    horder, h.results, ?_⟩
  · rcases hor with hor | hor
    · exact absurd (hl.symm.trans hor) Bool.false_ne_true
    · exact absurd hor nofun
  · exact h.stopped.keep_blank hcurrent rfl rfl

/-- The message is carried out as the next one of `bitbangWork`. -/
theorem complete_sound (h : s.Sound w apbClock b) {m : SpiMessage} (hw : s.worker = .running m) :
    let r := runMessage w apbClock s.shutdown m s.bus
    ({ s with
        bus := r.2, completed := s.completed ++ [(m, r.1)],
        worker := .looking } : Master).Sound w apbClock b := by
  intro r
  have horder := h.order
  have hseq := h.sequence
  have hresults := Prod.mk.inj h.results
  simp only [Master.outstanding, hw] at hseq
  refine ⟨h.serving, h.refused, h.bug, ?_, nofun, fun _ => .inr trivial, hseq, ?_, ?_, ?_⟩
  · exact (h.pending_iff (hw ▸ nofun)).trans (or_iff_left nofun).symm
  · rw [hw] at horder
    rw [List.map_append]
    exact horder.trans (congrArg (· ++ s.queue) (List.append_nil _).symm)
  · have happend := bitbangWork_append w apbClock false (s.completed.map (·.1)) [m] b
    simp only [← hresults.1, ← hresults.2] at happend
    rw [List.map_append, List.map_append]
    refine Eq.trans ?_ happend.symm
    simp only [bitbangWork, r, h.serving]
    rfl
  · refine h.stopped.keep rfl ?_ ?_ (.inl rfl)
    · rw [List.length_append]
      exact Nat.le_add_right ..
    · rw [hw, List.length_append]
      exact Nat.le_refl _

theorem leave_sound (h : s.Sound w apbClock b) (hw : s.worker = .leaving) :
    ({ s with
        removeSequence := s.removeSequence + 1, worker := .idle } : Master).Sound w apbClock b := by
  have hcurrent : s.worker.current = [] := hw ▸ rfl
  have horder := h.order
  have hseq := h.sequence
  have hwoken := h.woken
  rw [hcurrent] at horder
  rw [hw] at hwoken
  simp only [Master.outstanding, hw] at hseq
  refine ⟨h.serving, h.refused, h.bug, ?_, nofun, hwoken, ?_, horder, h.results, ?_⟩
  · exact (h.pending_iff (hw ▸ nofun)).trans (or_iff_left nofun).symm
  · simp only [Master.outstanding]
    omega
  · exact h.stopped.keep_blank hcurrent rfl rfl

/-- A step of the workqueue's thread, case by case on where it stands. -/
theorem work_sound (h : s.Sound w apbClock b) {t : Master} (ht : s.work w apbClock = some t) :
    t.Sound w apbClock b := by
  unfold Master.work at ht
  cases hw : s.worker with
  | idle =>
    simp only [hw] at ht
    split at ht
    · rename_i hl
      obtain rfl := Option.some.inj ht
      exact take_sound h hw hl
    · exact absurd ht nofun
  | taken =>
    simp only [hw] at ht
    obtain rfl := Option.some.inj ht
    exact clear_sound h hw
  | entered =>
    simp only [hw] at ht
    obtain rfl := Option.some.inj ht
    exact pick_sound h (.inl hw) true
  | running m =>
    simp only [hw] at ht
    obtain rfl := Option.some.inj ht
    exact complete_sound h hw
  | looking =>
    simp only [hw] at ht
    obtain rfl := Option.some.inj ht
    exact pick_sound h (.inr hw) s.busy
  | leaving =>
    simp only [hw] at ht
    obtain rfl := Option.some.inj ht
    exact leave_sound h hw

/-- The steps of `spi_bitbang_stop` change nothing else, its `shutdown = 0` included. -/
theorem moved_sound (h : s.Sound w apbClock b) {stop : Stop}
    (hstop : ({ s with stop } : Master).Stopped) :
    ({ s with stop } : Master).Sound w apbClock b :=
  ⟨h.serving, h.refused, h.bug, h.pending, h.taken, h.woken, h.sequence, h.order, h.results, hstop⟩

/-- A message that is off an empty queue when the flush begins is one it waits for. -/
theorem flush_needed (h : s.Sound w apbClock b) {seen : Nat} (hs : s.stop = .emptied seen) :
    seen ≤ s.completed.length ∨ seen ≤ s.completed.length + s.worker.current.length ∧
      s.removeSequence < s.insertSequence := by
  have hstopped := h.stopped
  rw [Master.Stopped, hs] at hstopped
  by_cases hc : s.worker.current = []
  · rw [hc, List.length_nil, Nat.add_zero] at hstopped
    exact .inl hstopped
  · have hseq := h.sequence
    have hpos : 0 < s.outstanding := by
      unfold Master.outstanding
      split
      · rename_i hidle
        exact absurd (hidle ▸ rfl) hc
      · exact Nat.succ_pos _
    exact .inr ⟨hstopped, by omega⟩

theorem stopping_sound (h : s.Sound w apbClock b) {t : Master} (ht : s.stopping = some t) :
    t.Sound w apbClock b := by
  have hopen : ∀ stop, ({ s with shutdown := false, stop } : Master) = { s with stop } := by
    intro stop
    rw [← h.serving]
  unfold Master.stopping at ht
  cases hs : s.stop with
  | notCalled =>
    simp only [hs] at ht
    obtain rfl := Option.some.inj ht
    rw [hopen]
    exact moved_sound h trivial
  | busy =>
    simp only [hs] at ht
    obtain rfl := Option.some.inj ht
    rw [hopen]
    exact moved_sound h trivial
  | waiting limit =>
    simp only [hs] at ht
    split at ht <;> obtain rfl := Option.some.inj ht <;> exact moved_sound h trivial
  | checking =>
    simp only [hs] at ht
    split at ht
    · obtain rfl := Option.some.inj ht
      exact moved_sound h trivial
    · rename_i hq
      obtain rfl := Option.some.inj ht
      refine moved_sound h ?_
      have horder := congrArg List.length h.order
      rw [not_not.mp hq, List.append_nil, List.length_append, List.length_map] at horder
      exact Nat.le_of_eq horder
  | emptied seen =>
    simp only [hs] at ht
    obtain rfl := Option.some.inj ht
    exact moved_sound h (flush_needed h hs)
  | flushing seen needed =>
    simp only [hs] at ht
    split at ht
    · exact absurd ht nofun
    · rename_i hn
      obtain rfl := Option.some.inj ht
      have hstopped := h.stopped
      rw [Master.Stopped, hs] at hstopped
      exact moved_sound h (hstopped.resolve_right fun hr => hn hr.2)
  | halting seen =>
    simp only [hs] at ht
    have hstopped := h.stopped
    rw [Master.Stopped, hs] at hstopped
    split at ht
    · obtain rfl := Option.some.inj ht
      exact moved_sound h hstopped
    · exact absurd ht nofun
  | destroyed seen =>
    simp only [hs] at ht
    exact absurd ht nofun

theorem step_sound (h : s.Sound w apbClock b) {a : Act} {t : Master}
    (ht : s.step w apbClock a = some t) : t.Sound w apbClock b := by
  cases a with
  | transfer m =>
    obtain rfl := Option.some.inj ht
    exact transfer_sound h m
  | enqueue i =>
    simp only [Master.step] at ht
    split at ht
    · exact absurd ht nofun
    · exact absurd ht nofun
    · obtain rfl := Option.some.inj ht
      exact enqueue_sound h _ _
  | work =>
    simp only [Master.step] at ht
    split at ht
    · exact absurd ht nofun
    · exact work_sound h ht
  | stop => exact stopping_sound h ht

/-- The states of a controller reached by its callers, its thread and `spi_bitbang_stop`,
whatever the order of their steps. -/
def Reached (w : Slave) (apbClock : Nat) (b : Bus) : Master → Prop :=
  Reach (Master.step w apbClock) anyStep (.start b)

theorem Reached.sound (h : Reached w apbClock b s) : s.Sound w apbClock b :=
  Reach.invariant h (start_sound w apbClock b) fun _ _ _ hu _ ht => step_sound hu ht

/-- In every interleaving the messages are carried out one at a time in the order in which
they were queued, as `bitbangWork` carries out a list, none lost and none twice; no caller is
ever refused, `spi_bitbang_stop` included, and when that returns 0 what was queued before it
looked is complete. -/
theorem messages_serialized (w : Slave) (apbClock : Nat) (b : Bus) (s : Master)
    (h : Reached w apbClock b s) :
    s.accepted = s.completed.map (·.1) ++ s.worker.current ++ s.queue ∧
      (s.completed.map (·.2), s.bus) = bitbangWork w apbClock false (s.completed.map (·.1)) b ∧
      (∀ m, s.transfer m = { s with callers := s.callers ++ [m] }) ∧
      s.refused = [] ∧ s.bug = false ∧
      ∀ seen, s.stop = .destroyed seen → s.accepted.take seen <+: s.completed.map (·.1) := by
  have hs := h.sound
  refine ⟨hs.order, hs.results, fun m => ?_, hs.refused, hs.bug, fun seen hstop => ?_⟩
  · rw [Master.transfer, hs.serving]
    rfl
  · have hseen := hs.stopped
    rw [Master.Stopped, hstop] at hseen
    rw [hs.order, List.append_assoc]
    have hlen : seen ≤ (s.completed.map (·.1)).length := by
      rw [List.length_map]
      exact hseen
    rw [List.take_append_of_le_length hlen]
    exact List.take_prefix ..

/-- Two messages, queued in the other order than they came, the controller stopped while they
are carried out, and a caller after that. -/
def stoppedRun : List Act :=
  [.transfer writeEnable, .transfer readIdentification, .enqueue 1, .work, .enqueue 0, .work, .work,
    .stop, .work, .work, .stop, .stop, .stop, .work, .work, .work, .stop, .stop,
    .transfer readIdentification]

theorem messages_serialized_stop :
    let w : Slave := ⟨fun _ => 0, fun _ => 0xc2⟩
    ∃ s, run (Master.step w 0) anyStep stoppedRun (.start idleBus) = some s ∧
      s.stop = .destroyed 2 ∧ s.completed.map (·.1) = [readIdentification, writeEnable] ∧
      s.bus.xchgs.map Xchg.out = [0x9f, 0xff, 0xff, 0xff, 0x06] ∧
      s.accepted = s.completed.map (·.1) ++ s.worker.current ++ s.queue ∧
      (s.completed.map (·.2), s.bus) = bitbangWork w 0 false (s.completed.map (·.1)) idleBus ∧
      (∀ m, s.transfer m = { s with callers := s.callers ++ [m] }) ∧
      s.refused = [] ∧ s.bug = false ∧
      ∀ seen, s.stop = .destroyed seen → s.accepted.take seen <+: s.completed.map (·.1) :=
  ⟨_, rfl, rfl, rfl, rfl, messages_serialized _ 0 idleBus _ (Reach.start.run stoppedRun rfl)⟩

/-- How far the thread is from having looked at everything. -/
def Master.rank (s : Master) : Nat :=
  2 * s.queue.length + match s.worker with
    | .leaving => 5
    | .idle => 4
    | .taken | .running _ => 3
    | .entered | .looking => 2

theorem pick_rank (hq : s.queue ≠ []) (hlook : s.worker = .entered ∨ s.worker = .looking)
    (busy : Bool) : { s with busy }.pick.rank < s.rank ∧
      { s with busy }.pick.accepted = s.accepted ∧ { s with busy }.pick.stop = s.stop := by
  obtain ⟨m, queue, hq⟩ := List.exists_cons_of_ne_nil hq
  rw [pick_cons hq]
  refine ⟨?_, rfl, rfl⟩
  rcases hlook with hw | hw <;> simp only [Master.rank, hw, hq, List.length_cons] <;> omega

/-- As long as a message is not complete the thread can go on, and comes closer. -/
theorem work_progress (h : s.Sound w apbClock b) (hne : s.worker.current ++ s.queue ≠ []) :
    ∃ t, s.work w apbClock = some t ∧ t.rank < s.rank ∧ t.accepted = s.accepted ∧
      t.stop = s.stop := by
  have hqueue : s.worker.current = [] → s.queue ≠ [] := fun hc hq => hne (by rw [hc, hq]; rfl)
  cases hw : s.worker with
  | idle =>
    have hl : s.worklist = true := by
      have hwoken := h.woken (hqueue (hw ▸ rfl))
      rw [hw] at hwoken
      exact hwoken.resolve_right id
    refine ⟨{ s with worklist := false, worker := .taken }, ?_, ?_, rfl, rfl⟩
    · simp only [Master.work, hw, hl, ↓reduceIte]
    · simp only [Master.rank, hw]
      omega
  | taken =>
    refine ⟨{ s with pending := false, worker := .entered }, ?_, ?_, rfl, rfl⟩
    · simp only [Master.work, hw]
    · simp only [Master.rank, hw]
      omega
  | entered =>
    refine ⟨_, ?_, pick_rank (hqueue (hw ▸ rfl)) (.inl hw) true⟩
    simp only [Master.work, hw]
  | running m =>
    let r := runMessage w apbClock s.shutdown m s.bus
    refine ⟨{ s with bus := r.2, completed := s.completed ++ [(m, r.1)], worker := .looking },
      ?_, ?_, rfl, rfl⟩
    · simp only [Master.work, hw, r]
    · simp only [Master.rank, hw]
      omega
  | looking =>
    have hwork : s.work w apbClock = some s.pick := by simp only [Master.work, hw]
    exact ⟨s.pick, hwork, pick_rank (hqueue (hw ▸ rfl)) (.inr hw) s.busy⟩
  | leaving =>
    refine ⟨{ s with removeSequence := s.removeSequence + 1, worker := .idle }, ?_, ?_, rfl, rfl⟩
    · simp only [Master.work, hw]
    · simp only [Master.rank, hw]
      omega

theorem step_work (hstop : ∀ seen, s.stop ≠ .destroyed seen) :
    s.step w apbClock .work = s.work w apbClock := by
  cases hs : s.stop with
  | destroyed seen => exact absurd hs (hstop seen)
  | _ => simp only [Master.step, hs]

theorem drains (h : s.Sound w apbClock b) (hstop : ∀ seen, s.stop ≠ .destroyed seen) :
    ∃ n t, run (Master.step w apbClock) anyStep (List.replicate n .work) s = some t ∧
      t.completed.map (·.1) = s.accepted ∧ t.accepted = s.accepted ∧ t.queue = [] := by
  induction hr : s.rank using Nat.strongRecOn generalizing s with
  | _ r ih =>
    by_cases hne : s.worker.current ++ s.queue = []
    · have horder := h.order
      rw [List.append_assoc, hne, List.append_nil] at horder
      exact ⟨0, s, rfl, horder.symm, rfl, (List.append_eq_nil_iff.mp hne).2⟩
    · obtain ⟨u, hu, hrank, haccepted, hsame⟩ := work_progress h hne
      obtain ⟨n, t, hrun, hdone, ht, hq⟩ := ih u.rank (hr ▸ hrank) (work_sound h hu)
        (by rw [hsame]; exact hstop) rfl
      refine ⟨n + 1, t, ?_, hdone.trans haccepted, ht.trans haccepted, hq⟩
      rw [List.replicate_succ, Lib.run, if_pos (show anyStep s Act.work from trivial),
        step_work hstop, hu]
      exact hrun

/-- No wake-up is lost: from every state before the workqueue is destroyed its thread alone
completes everything that was queued. -/
theorem queue_drains (w : Slave) (apbClock : Nat) (b : Bus) (s : Master)
    (h : Reached w apbClock b s) (hstop : ∀ seen, s.stop ≠ .destroyed seen) :
    ∃ n t, run (Master.step w apbClock) anyStep (List.replicate n .work) s = some t ∧
      t.completed.map (·.1) = s.accepted ∧ t.accepted = s.accepted ∧ t.queue = [] :=
  drains h.sound hstop

/-- Two messages queued between the loop's last test and the end of the work. -/
def lateRun : List Act :=
  [.transfer readIdentification, .transfer writeEnable, .transfer readIdentification, .enqueue 0,
    .work, .work, .work, .work, .work, .enqueue 0, .enqueue 0]

theorem queue_drains_late :
    let w : Slave := ⟨fun _ => 0, fun _ => 0xc2⟩
    ∃ s, run (Master.step w 0) anyStep lateRun (.start idleBus) = some s ∧
      s.queue = [writeEnable, readIdentification] ∧
      ∃ n t, run (Master.step w 0) anyStep (List.replicate n .work) s = some t ∧
        t.completed.map (·.1) = s.accepted ∧ t.accepted = s.accepted ∧ t.queue = [] :=
  ⟨_, rfl, rfl, queue_drains _ 0 idleBus _ (Reach.start.run lateRun rfl) fun _ => Stop.noConfusion⟩

end SnakeOs.Spi
