import SnakeOs.Disk.Mounts

/-! Runs of hot-plug events and requests of the disk name page. -/

namespace SnakeOs.Disk
open Lib

section
variable {env : Env} {s : Box} {d : Part} {m : Mount} {w : Line}

theorem Part.dirName (d : Part) : DirName d.name := by
  refine ⟨by simp [Part.name], fun c hc => ?_⟩
  simp only [Part.name, List.mem_cons] at hc
  rcases hc with rfl | rfl | rfl | hc
  · decide
  · decide
  · have halpha : d.letter.isAlpha = true := (Bool.or_eq_true _ _).mpr (.inr d.lower)
    simp [Char.isAlphanum, halpha]
  · have hd : c.isDigit = true := Nat.isDigit_of_mem_toDigits (by decide) (by decide) hc
    simp [Char.isAlphanum, hd]

theorem DirName.not_mem (h : DirName w) {c : Char} (hc : (c.isAlphanum || c == '_') = false) :
    c ∉ w := word_not_mem h.2 hc

theorem DirName.text (h : DirName w) : ∀ c ∈ w, c ≠ '\n' ∧ c ≠ '\x00' := fun c hc => by
  have : c ∉ ['\n', '\x00'] := not_mem_of_word (h.2 c hc) (by decide)
  simpa using this

/-- A word without special characters stays one word. -/
theorem words_eq {v : Line} (hne : v ≠ [])
    (h : ∀ c ∈ v, c ∉ [' ', '\t', '\n', '*', '?', '[']) : words env v = [v] := by
  have hn : '\n' ∉ v := fun hm => h _ hm (by simp)
  rw [words, textLines_end hn, List.nil_append, if_neg hne]
  refine unquoted_plain env.files hne fun c hc hm => h c hc ?_
  simp only [List.mem_cons] at hm ⊢
  tauto

theorem DirName.words (h : DirName w) : words env w = [w] :=
  words_eq h.1 fun c hc => not_mem_of_word (h.2 c hc) (by decide)

theorem DirName.words_usb (h : DirName w) : Disk.words env (usb w) = [usb w] := by
  refine words_eq (by simp [usb]) fun c hc => ?_
  rcases List.mem_append.mp hc with hc | hc
  · have hall : ∀ c ∈ "/usb/".toList, c ∉ [' ', '\t', '\n', '*', '?', '['] := by decide
    exact hall c hc
  · exact not_mem_of_word (h.2 c hc) (by decide)

theorem mountLine_eq : mountLine env m =
    "/dev/".toList ++ m.dev.name ++ ' ' :: (m.dir ++ ' ' :: env.options m) := rfl

/-- `grep` finds the partitions whose names start with the name it is given. -/
theorem devLine_iff : devLine d (mountLine env m) = true ↔ d.name <+: m.dev.name := by
  have hplain : ∀ c ∈ "/dev/".toList ++ d.name, Plain c := by
    intro c hc
    rcases List.mem_append.mp hc with hc | hc
    · have hall : ∀ c ∈ "/dev/".toList, Plain c := by decide
      exact hall c hc
    · exact (plainEre_of_word (d.dirName.2 c hc)).1
  rw [devLine, (grep_start hplain (by simp) _).1, mountLine_eq, List.append_assoc,
    List.prefix_append_right_inj]
  constructor
  · rintro ⟨rest, hr⟩
    rcases List.append_eq_append_iff.mp hr with ⟨as, hname, -⟩ | ⟨as, hname, hrest⟩
    · exact ⟨as, hname.symm⟩
    · cases as with
      | nil => exact ⟨[], by simpa using hname⟩
      | cons c as =>
        -- the blank behind the device's name would be in the partition's
        obtain rfl : ' ' = c := (List.cons.inj hrest).1
        have hmem : ' ' ∈ d.name := by
          rw [hname]
          exact List.mem_append_right _ List.mem_cons_self
        exact absurd hmem (d.dirName.not_mem (by decide))
  · rintro ⟨rest, hr⟩
    exact ⟨rest ++ ' ' :: (m.dir ++ ' ' :: env.options m), by
      simp only [← hr, List.append_assoc]⟩

theorem mountLine_dir (h : ' ' ∉ m.dir) : cutField ' ' 2 (mountLine env m) = m.dir := by
  have hdev : ' ' ∉ "/dev/".toList ++ m.dev.name := by
    simpa using m.dev.dirName.not_mem (c := ' ') (by decide)
  rw [mountLine_eq, cutField_second _ hdev, List.splitOn_append_cons_self_of_not_mem h]
  rfl

theorem mountLine_usb (hw : DirName w) :
    cutField '/' 3 (cutField ' ' 2 (mountLine env ⟨d, usb w⟩)) = w := by
  have hblank : ' ' ∉ usb w := by simpa [usb] using hw.not_mem (c := ' ') (by decide)
  have hslash : '/' ∉ w := hw.not_mem (by decide)
  have husb : usb w = [] ++ '/' :: ("usb".toList ++ '/' :: w) := by simp [usb]
  rw [mountLine_dir hblank, cutField, if_pos (by simp [usb]), husb,
    List.splitOn_append_cons_self_of_not_mem (by simp),
    List.splitOn_append_cons_self_of_not_mem (by decide), List.splitOn_eq_singleton hslash]
  rfl

theorem mountLine_opt : cutField '/' 3 (cutField ' ' 2 (mountLine env ⟨d, opt⟩)) = [] := by
  have hblank : ' ' ∉ opt := by decide
  have hcut : cutField '/' 3 opt = [] := by decide
  rw [mountLine_dir hblank]
  exact hcut

/-- The name that `/etc/default/diskname` gives the partition, or its own. -/
def Named (env : Env) (s : Box) (d : Part) (w : Line) : Prop :=
  ∃ k, (names env s d = List.replicate k [] ∧ w = d.name) ∨
    (names env s d = w :: List.replicate k [] ∧ DirName w)

def Unmounted (s : Box) (d : Part) : Prop := ∀ m ∈ s.mounts, m.dev ≠ d

/-- `automount D add` mounts `D`: no partition is mounted whose name goes on where `D` ends, the file
has at most one name for the partition, and no partition is mounted under that name. -/
def AddOk (env : Env) (s : Box) (d : Part) : Prop :=
  ¬ Unmounted s d ∨ (∀ m ∈ s.mounts, ¬ d.name <+: m.dev.name) ∧
    ∃ w, Named env s d w ∧ ∀ m ∈ s.mounts, m.dir ≠ usb w

theorem Named.dirName (h : Named env s d w) : DirName w := by
  obtain ⟨k, ⟨-, rfl⟩ | ⟨-, hw⟩⟩ := h
  · exact d.dirName
  · exact hw

theorem Named.addMpoint (h : Named env s d w) : addMpoint env s d = w := by
  have hw := h.dirName
  obtain ⟨k, ⟨hn, rfl⟩ | ⟨hn, -⟩⟩ := h
  · rw [Disk.addMpoint, hn, capturedLines_empty, if_pos rfl]
  · rw [Disk.addMpoint, hn, capturedLines_first hw.text, if_neg hw.1]

/-- The opkg tree is shown at `/opt` for the partition that was mounted last. -/
theorem bindOpt_mounts {ms : List Mount} (hs : s.mounts = ms ++ [⟨d, usb w⟩]) :
    (bindOpt (usb w) s).mounts = ms ++ [⟨d, usb w⟩] ++ [⟨d, opt⟩] := by
  simp [bindOpt, hs]

theorem opkgLink_orderly {ms : List Mount} (h : Orderly env s.mounts)
    (hs : s.mounts = ms ++ [⟨d, usb w⟩]) (hd : entries ms d = []) (ho : isOpkgDisk env w = true) :
    Orderly env (opkgLink env w s).mounts ∧ ⟨d, usb w⟩ ∈ (opkgLink env w s).mounts := by
  -- linking over `ms'`, which is what was mounted before, with or without its `/opt`
  have hlink {t : Box} {ms' : List Mount} (ht : Orderly env t.mounts)
      (hms : t.mounts = ms' ++ [⟨d, usb w⟩]) (hsub : ms'.Sublist ms)
      (hfree : ∀ m ∈ t.mounts, m.dir ≠ opt) : Orderly env (bindOpt (usb w) t).mounts ∧ ⟨d, usb w⟩ ∈ (bindOpt (usb w) t).mounts := by
    have hnil : entries ms' d = [] := by
      have hsub' : (entries ms' d).Sublist (entries ms d) := hsub.filter _
      rw [hd] at hsub'
      exact List.sublist_nil.mp hsub'
    have hent : entries (ms' ++ [⟨d, usb w⟩]) d = [⟨d, usb w⟩] := by
      simpa [entries] using hnil
    rw [hms] at ht hfree
    rw [bindOpt_mounts hms]
    exact ⟨ht.bind hent ho hfree, by simp⟩
  have hstay : Orderly env s.mounts ∧ ⟨d, usb w⟩ ∈ s.mounts := ⟨h, by simp [hs]⟩
  have hunlink : umount (fun m => m.dir = opt) s.mounts =
      umount (fun m => m.dir = opt) ms ++ [⟨d, usb w⟩] := by
    simp [umount, hs, usb_ne_opt]
  simp only [opkgLink]
  split_ifs with huse
  · exact hstay
  · exact hstay
  · simp only [opkgUnlink, huse, ↓reduceIte]
    exact hlink h.unlink hunlink (umount_sublist _ _) fun m hm => h.unlinked hm
  · rename_i hnone
    exact hlink h hs (List.Sublist.refl ms) (by simpa using hnone)
  · exact hstay

theorem swapsvcAutostart_mounts : (swapsvcAutostart env s).mounts = s.mounts := by
  rw [swapsvcAutostart]
  split
  · split
    · split <;> rfl
    · rfl
  · rfl

theorem automountAdd_orderly (h : Orderly env s.mounts) (hd : d ∈ env.attached)
    (hok : AddOk env s d) : Orderly env (automountAdd env s d).mounts ∧
      ∃ w, ⟨d, usb w⟩ ∈ (automountAdd env s d).mounts := by
  rcases hok with hmounted | ⟨hpre, w, hnamed, hfree⟩
  · obtain ⟨m, hm, hmd⟩ : ∃ m ∈ s.mounts, m.dev = d := by simpa [Unmounted] using hmounted
    have hfound : m ∈ devMounts env s d :=
      List.mem_filter.mpr ⟨hm, devLine_iff.mpr (hmd ▸ List.prefix_rfl)⟩
    have hstay : automountAdd env s d = s := if_neg (List.ne_nil_of_mem hfound)
    have hent : m ∈ entries s.mounts d := mem_entries.mpr ⟨hm, hmd⟩
    rw [hstay]
    refine ⟨h, ?_⟩
    rcases h.mounted d with hs | hs
    · rw [hs] at hent
      cases hent
    · exact hs
  · have hw := hnamed.dirName
    have hnone : devMounts env s d = [] :=
      List.filter_eq_nil_iff.mpr fun m hm hl => hpre m hm (devLine_iff.mp hl)
    have hent : entries s.mounts d = [] :=
      List.filter_eq_nil_iff.mpr fun m hm hl => hpre m hm (of_decide_eq_true hl ▸ List.prefix_rfl)
    have hmount : (swapsvcAutostart env (mountUsb env d w s)).mounts =
        s.mounts ++ [⟨d, usb w⟩] := by
      rw [swapsvcAutostart_mounts, mountUsb, hw.words_usb]
      simp [hd]
    have horder := h.mount hent hw hfree
    rw [← hmount] at horder
    simp only [automountAdd, hnone, ↓reduceIte, hnamed.addMpoint, hw.words, List.headD_cons]
    split
    · rename_i ho
      obtain ⟨hlink, hmem⟩ := opkgLink_orderly horder hmount hent ho
      exact ⟨hlink, w, hmem⟩
    · exact ⟨horder, w, by simp [hmount]⟩

def SwapOn (s : Box) (w : Line) : Prop := ∃ f, s.swap = some f ∧ usb w ++ ['/'] <+: f

/-- The names that the pattern for `/proc/swaps` finds. -/
def SwapName (w : Line) : Prop :=
  ∃ x n, w = ['s', 'd', x, n] ∧ x.isLower = true ∧ n.isDigit = true

/-- `automount D remove` acts on `D` alone: no partition is mounted whose name goes on where `D`
ends, a swap file on `D` is one that the pattern finds, and `/opt` is not another partition's when
it is unmounted. -/
structure RemoveOk (env : Env) (s : Box) (d : Part) : Prop where
  names : ∀ m ∈ s.mounts, d.name <+: m.dev.name → m.dev = d
  swap : ∀ w, ⟨d, usb w⟩ ∈ s.mounts → SwapOn s w → SwapName w
  opkg : ∀ w, ⟨d, usb w⟩ ∈ s.mounts ∨ w = [] ∧ Unmounted s d → isOpkgDisk env w = true →
    ∀ m ∈ s.mounts, m.dir = opt → m.dev = d

/-- What is run before the first `umount`. -/
def Removal.before (r : Removal) : List Ran := r.ran.takeWhile (· ≠ .umount)

/-- What `automount D remove` is for. -/
structure Removes (env : Env) (s : Box) (d : Part) (r : Removal) : Prop where
  mpoint : ∀ w, ⟨d, usb w⟩ ∈ s.mounts → r.mpoint = w
  unmounted : Unmounted s d → r.mpoint = []
  gone : Unmounted r.box d
  others : r.box.mounts.filter (·.dev ≠ d) = s.mounts.filter (·.dev ≠ d)
  swap : ∀ w, ⟨d, usb w⟩ ∈ s.mounts → SwapOn s w → .swapsvcStop ∈ r.before
  opkg : ⟨d, opt⟩ ∈ s.mounts ∨ (∃ w, ⟨d, usb w⟩ ∈ s.mounts ∧ isOpkgDisk env w = true) →
    .opkgUnlink ∈ r.before

theorem RemoveOk.devMounts (hok : RemoveOk env s d) : devMounts env s d = entries s.mounts d := by
  refine List.filter_congr fun m hm => ?_
  rw [Bool.eq_iff_iff, devLine_iff, decide_eq_true_eq]
  exact ⟨hok.names m hm, fun he => he ▸ List.prefix_rfl⟩

theorem entries_eq_nil : entries s.mounts d = [] ↔ Unmounted s d := by
  simp [entries, Unmounted]

theorem automountRemove_mpoint (h : Orderly env s.mounts) (hok : RemoveOk env s d)
    (hm : ⟨d, usb w⟩ ∈ s.mounts) : (automountRemove env s d).mpoint = w := by
  obtain ⟨hw, hshape⟩ := h.folder hm
  rw [automountRemove, hok.devMounts]
  rcases hshape with hs | hs
  · rw [hs, List.map_singleton, mountLine_usb hw]
    exact capturedLines_first hw.text 0
  · -- the line of `/opt` has no third field
    rw [hs, List.map_cons, List.map_singleton, mountLine_usb hw, mountLine_opt]
    exact capturedLines_first hw.text 1

theorem automountRemove_mpoint_nil (hok : RemoveOk env s d) (hu : Unmounted s d) :
    (automountRemove env s d).mpoint = [] := by
  rw [automountRemove, hok.devMounts, entries_eq_nil.mpr hu]
  rfl

theorem swapMounted_eq (hs : SwapOn s w) (hw : SwapName w) : swapMounted s = w := by
  obtain ⟨f, hf, rest, hr⟩ := hs
  obtain ⟨x, n, rfl, hx, hn⟩ := hw
  have hr : f = '/' :: 'u' :: 's' :: 'b' :: '/' :: 's' :: 'd' :: x :: n :: '/' :: rest := by
    rw [← hr]
    simp [usb]
  simp [swapMounted, hf, hr, hx, hn]

theorem opkgUnlink_swap : (opkgUnlink env s).swap = s.swap := by
  rw [opkgUnlink]
  split <;> rfl

theorem swapsvcStop_mounts : (swapsvcStop env s).mounts = s.mounts := by
  rw [swapsvcStop]
  split
  · split <;> rfl
  · rfl

theorem automountRemove_mounts : (automountRemove env s d).box.mounts =
    umountDevice d (umountDevice d
      (if isOpkgDisk env (automountRemove env s d).mpoint then opkgUnlink env s else s).mounts) := by
  have hstop (b : Bool) (t : Box) : (if b then swapsvcStop env t else t).mounts = t.mounts := by
    cases b
    · rfl
    · exact swapsvcStop_mounts
  simp only [automountRemove, hstop]

theorem automountRemove_before : (automountRemove env s d).before =
    (if isOpkgDisk env (automountRemove env s d).mpoint then [.opkgUnlink] else []) ++
      if swapMounted s = (automountRemove env s d).mpoint then [.swapsvcStop] else [] := by
  have hswap (b : Bool) : swapMounted (if b then opkgUnlink env s else s) = swapMounted s := by
    cases b
    · rfl
    · simp [swapMounted, opkgUnlink_swap]
  simp only [Removal.before, automountRemove, hswap, decide_eq_true_eq]
  split <;> split <;> simp

/-- What is left when `/opt` was unmounted, if it was. -/
theorem automountRemove_unlinked (h : Orderly env s.mounts) (hok : RemoveOk env s d) :
    (if isOpkgDisk env (automountRemove env s d).mpoint then opkgUnlink env s else s).mounts.Sublist
        s.mounts ∧
      (if isOpkgDisk env (automountRemove env s d).mpoint then opkgUnlink env s
        else s).mounts.filter (·.dev ≠ d) = s.mounts.filter (·.dev ≠ d) := by
  split
  · rename_i ho
    have hwhere : (⟨d, usb (automountRemove env s d).mpoint⟩ ∈ s.mounts) ∨
        (automountRemove env s d).mpoint = [] ∧ Unmounted s d := by
      rcases h.mounted d with hs | ⟨w, hw⟩
      · have hu := entries_eq_nil.mp hs
        exact .inr ⟨automountRemove_mpoint_nil hok hu, hu⟩
      · rw [automountRemove_mpoint h hok hw]
        exact .inl hw
    rw [opkgUnlink]
    split
    · refine ⟨umount_sublist _ _, umount_filter_of_not fun m hm hopt => ?_⟩
      simpa using hok.opkg _ hwhere ho m hm (of_decide_eq_true hopt)
    · exact ⟨List.Sublist.refl _, rfl⟩
  · exact ⟨List.Sublist.refl _, rfl⟩

theorem automountRemove_removes (h : Orderly env s.mounts) (hok : RemoveOk env s d) :
    Removes env s d (automountRemove env s d) ∧
      Orderly env (automountRemove env s d).box.mounts := by
  have hmp (w : Line) (hm : ⟨d, usb w⟩ ∈ s.mounts) : (automountRemove env s d).mpoint = w :=
    automountRemove_mpoint h hok hm
  have hnil (hu : Unmounted s d) : (automountRemove env s d).mpoint = [] :=
    automountRemove_mpoint_nil hok hu
  obtain ⟨hsub, hoth⟩ := automountRemove_unlinked h hok
  obtain ⟨hfirst, hkeep⟩ := umountDevice_spec (d := d) fun m hm m' hm' hd hdir =>
    (h.own (hsub.subset hm) (hsub.subset hm') hdir).trans hd
  -- nothing is left for the second `umount`
  obtain ⟨hgone, hagain⟩ := umountDevice_spec (d := d) fun m hm m' _ hd _ =>
    absurd (hfirst ▸ mem_entries.mpr ⟨hm, hd⟩ : m ∈ []) List.not_mem_nil
  rw [hkeep, hoth] at hagain
  rw [← automountRemove_mounts] at hgone hagain
  have hothers : (automountRemove env s d).box.mounts.filter (·.dev ≠ d) =
      s.mounts.filter (·.dev ≠ d) := hagain
  refine ⟨⟨hmp, hnil, entries_eq_nil.mp hgone, hothers, fun w hm hs => ?_, fun ho => ?_⟩, ?_⟩
  · rw [automountRemove_before, hmp w hm, swapMounted_eq hs (hok.swap w hm hs)]
    simp
  · obtain ⟨w, hm, ho⟩ : ∃ w, ⟨d, usb w⟩ ∈ s.mounts ∧ isOpkgDisk env w = true := by
      rcases ho with ho | ho
      · exact h.opkg d ho
      · exact ho
    rw [automountRemove_before, hmp w hm, ho]
    simp
  · refine h.drop fun e => ?_
    by_cases hde : e = d
    · subst hde
      exact .inr hgone
    · have hsame (l : List Mount) : entries l e = entries (l.filter (·.dev ≠ d)) e := by
        rw [entries, entries, List.filter_filter]
        refine List.filter_congr fun m _ => ?_
        by_cases hm : m.dev = e <;> simp [hm, hde]
      rw [hsame, hothers, ← hsame]
      exact .inl rfl

/-- The condition on a call in the state before it. -/
def EventOk (env : Env) (s : Box) : Event → Prop
  | .add d => AddOk env s d
  | .remove d => RemoveOk env s d
  | .setDiskname _ => True
  | .removeDiskname _ => True

/-- What a call is for. -/
def EventGood (env : Env) (s : Box) : Event → Prop
  | .add d => ∃ w, ⟨d, usb w⟩ ∈ (automountAdd env s d).mounts
  | .remove d => Removes env s d (automountRemove env s d)
  | .setDiskname _ => True
  | .removeDiskname _ => True

/-- The events are about partitions that are attached. -/
def Event.Attached (env : Env) : Event → Prop
  | .add d => d ∈ env.attached
  | .remove d => d ∈ env.attached
  | .setDiskname _ => True
  | .removeDiskname _ => True

def Action.Attached (env : Env) (a : Action) : Prop := ∀ e ∈ a.events env, e.Attached env

/-- Each event meets `P` in the state it finds. -/
def Along (env : Env) (P : Box → Event → Prop) (s : Box) (es : List Event) : Prop :=
  ∀ before e after, es = before ++ e :: after → P (runEvents env s before) e

def ActionOk (env : Env) (s : Box) (a : Action) : Prop :=
  a.Attached env ∧ Along env (EventOk env) s (a.events env)

theorem event_orderly {e : Event} (h : Orderly env s.mounts) (ha : e.Attached env)
    (hok : EventOk env s e) : Orderly env (e.apply env s).mounts ∧ EventGood env s e := by
  cases e with
  | add d => exact automountAdd_orderly h ha hok
  | remove d => exact (automountRemove_removes h hok).symm
  | setDiskname args => exact ⟨h, trivial⟩
  | removeDiskname args => exact ⟨h, trivial⟩

theorem runEvents_orderly {es : List Event} (h : Orderly env s.mounts)
    (ha : ∀ e ∈ es, e.Attached env) (hok : Along env (EventOk env) s es) :
    Orderly env (runEvents env s es).mounts := by
  induction es generalizing s with
  | nil => exact h
  | cons e es ih =>
    have hstep := (event_orderly h (ha e List.mem_cons_self) (hok [] e es rfl)).1
    refine ih hstep (fun x hx => ha x (List.mem_cons_of_mem e hx)) fun before x after he => ?_
    exact hok (e :: before) x after (by rw [he]; rfl)

/-- Where nothing is mounted. -/
def boot (diskname : Option (List Line)) : Box := ⟨[], diskname, none⟩

theorem actionStep_add (env : Env) (s : Box) (d : Part) :
    actionStep env s (.add d) = some (automountAdd env s d) := rfl

theorem Along.single {P : Box → Event → Prop} {e : Event} : Along env P s [e] ↔ P s e := by
  refine ⟨fun h => h [] e [] rfl, fun h before x after he => ?_⟩
  cases before with
  | nil =>
    obtain ⟨rfl, -⟩ := List.cons.inj he
    exact h
  | cons y before => simp at he

end

def sda1 : Part := ⟨'a', 1, by decide, by decide⟩

def sdb1 : Part := ⟨'b', 1, by decide, by decide⟩

def sda10 : Part := ⟨'a', 10, by decide, by decide⟩

/-- A device with swap and opkg on the first partition of a disk. -/
def sampleEnv : Env where
  attached := [sda1, sda10]
  info _ := none
  config := ["use_swap=1", "swapfile=/usb/sda1/swap", "use_opkg=1", "opkg_disk=sda1"].map String.toList
  options _ := "ext3 rw,noatime 0 0".toList
  optDir := true
  swapReady _ ms := ms.any fun m => m.dir = usb sda1.name
  files _ := []
  ops := ⟨fun _ _ => none, fun op a b => if op = "-eq".toList then some (a = b) else none⟩
  regex _ _ := false
  sed _ lines := lines

/-- After `sda1` was mounted, before and after its opkg tree was linked. -/
def mounted : Box := ⟨[⟨sda1, usb sda1.name⟩], some [], some "/usb/sda1/swap".toList⟩

def plugged : Box := { mounted with mounts := mounted.mounts ++ [⟨sda1, opt⟩] }

theorem plugged_eq : automountAdd sampleEnv (boot (some [])) sda1 = plugged := by
  obtain ⟨hmp, hmount, hopkg, hlink⟩ : addMpoint sampleEnv (boot (some [])) sda1 = sda1.name ∧
      swapsvcAutostart sampleEnv (mountUsb sampleEnv sda1 sda1.name (boot (some []))) = mounted ∧
      isOpkgDisk sampleEnv sda1.name = true ∧
      opkgLink sampleEnv ((words sampleEnv sda1.name).headD []) mounted = plugged := by decide +kernel
  have hnone : devMounts sampleEnv (boot (some [])) sda1 = [] := rfl
  simp only [automountAdd, hmp, hnone, ↓reduceIte, hmount, hopkg, hlink]

end SnakeOs.Disk
