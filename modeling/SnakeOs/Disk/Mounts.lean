import SnakeOs.Disk.Automount

/-! What `automount` does to the mounts over whole runs. -/

namespace SnakeOs.Disk
open Lib

section
variable {p q : Mount → Bool} {ms : List Mount}

/-- What `umount` takes, if there is something to take. -/
theorem umount_cases (p : Mount → Bool) (ms : List Mount) :
    ((∀ m ∈ ms, p m = false) ∧ umount p ms = ms) ∨
      ∃ a x b, ms = a ++ x :: b ∧ p x = true ∧ (∀ m ∈ b, p m = false) ∧ umount p ms = a ++ b := by
  by_cases h : ∃ m ∈ ms, p m = true
  · obtain ⟨m, hm, hp⟩ := h
    obtain ⟨x, l, r, hl, hx, hms, he⟩ := List.exists_of_eraseP (List.mem_reverse.mpr hm) hp
    refine .inr ⟨r.reverse, x, l.reverse, ?_, hx, fun m hm => ?_, ?_⟩
    · have := congrArg List.reverse hms
      simpa using this
    · simpa using hl m (List.mem_reverse.mp hm)
    · rw [umount, he, List.reverse_append]
  · have hnone : ∀ m ∈ ms, p m = false := fun m hm => by simpa using fun hp => h ⟨m, hm, hp⟩
    refine .inl ⟨hnone, ?_⟩
    rw [umount, List.eraseP_of_forall_not, List.reverse_reverse]
    simpa using hnone

theorem umount_sublist (p : Mount → Bool) (ms : List Mount) : (umount p ms).Sublist ms := by
  have h : (ms.reverse.eraseP p).Sublist ms.reverse := List.eraseP_sublist
  simpa [umount] using h.reverse

/-- What is not given to `umount` stays. -/
theorem umount_filter_of_not (h : ∀ m ∈ ms, p m = true → q m = false) :
    (umount p ms).filter q = ms.filter q := by
  rcases umount_cases p ms with ⟨-, he⟩ | ⟨a, x, b, rfl, hx, -, he⟩
  · rw [he]
  · rw [he]
    simp [h x (by simp) hx]

theorem umount_append {a b : List Mount} {x : Mount} (hx : p x = true)
    (hb : ∀ m ∈ b, p m = false) : umount p (a ++ x :: b) = a ++ b := by
  have hnone : ∀ m ∈ b.reverse, ¬ p m = true := fun m hm => by
    simp [hb m (List.mem_reverse.mp hm)]
  rw [umount, List.reverse_append, List.reverse_cons, List.append_assoc,
    List.eraseP_append_right _ hnone, List.singleton_append, List.eraseP_cons_of_pos hx]
  simp

/-- Among what `umount` may take nothing else is looked at. -/
theorem filter_umount (h : ∀ m ∈ ms, p m = true → q m = true) :
    (umount p ms).filter q = umount p (ms.filter q) := by
  rcases umount_cases p ms with ⟨hnone, he⟩ | ⟨a, x, b, rfl, hx, hb, he⟩
  · have hnone' : ∀ m ∈ ms.filter q, p m = false := fun m hm => hnone m (List.mem_filter.mp hm).1
    rcases umount_cases p (ms.filter q) with ⟨-, he'⟩ | ⟨a, x, b, hms, hx, -⟩
    · rw [he, he']
    · rw [hnone' x (hms ▸ by simp)] at hx
      cases hx
  · have hq : q x = true := h x (by simp) hx
    rw [he, List.filter_append, List.filter_append, List.filter_cons_of_pos hq,
      umount_append hx fun m hm => hb m (List.mem_filter.mp hm).1]

theorem umountFolders_self (l : List Mount) : umountFolders l.reverse l = [] := by
  induction l using List.reverseRecOn with
  | nil => rfl
  | append_singleton l m ih =>
    rw [umountFolders, List.reverse_append, List.reverse_singleton, List.singleton_append,
      List.foldl_cons, umount_append (by simp) (by simp), List.append_nil]
    exact ih

/-- Folders with mounts of one kind only: that kind goes as if nothing else was mounted, and the
others stay. -/
theorem umountFolders_filter {l : List Mount}
    (h : ∀ m ∈ l, ∀ x ∈ ms, x.dir = m.dir → q x = true) :
    (umountFolders l ms).filter q = umountFolders l (ms.filter q) ∧
      (umountFolders l ms).filter (fun m => ¬ q m) = ms.filter (fun m => ¬ q m) := by
  induction l generalizing ms with
  | nil => exact ⟨rfl, rfl⟩
  | cons m l ih =>
    have hm : ∀ x ∈ ms, decide (x.dir = m.dir) = true → q x = true := fun x hx hd =>
      h m List.mem_cons_self x hx (of_decide_eq_true hd)
    obtain ⟨hsame, hothers⟩ := ih fun y hy x hx =>
      h y (List.mem_cons_of_mem m hy) x ((umount_sublist _ ms).subset hx)
    rw [filter_umount hm] at hsame
    rw [umount_filter_of_not fun x hx hd => by simp [hm x hx hd]] at hothers
    exact ⟨hsame, hothers⟩

end

/-- A name of a folder that every command takes as it is. -/
def DirName (w : Line) : Prop := w ≠ [] ∧ ∀ c ∈ w, (c.isAlphanum || c == '_') = true

def entries (ms : List Mount) (d : Part) : List Mount := ms.filter fun m => m.dev = d

/-- No two partitions are mounted on one folder of `/usb`. -/
def Apart (ms : List Mount) : Prop :=
  ∀ m ∈ ms, ∀ m' ∈ ms, m.dir = m'.dir → "/usb/".toList <+: m.dir → m.dev = m'.dev

/-- Every partition is mounted on a folder of its own, and the opkg tree is on its disk. -/
structure Orderly (env : Env) (ms : List Mount) : Prop where
  shape : ∀ d, entries ms d = [] ∨ ∃ w, DirName w ∧
    (entries ms d = [⟨d, usb w⟩] ∨ entries ms d = [⟨d, usb w⟩, ⟨d, opt⟩])
  apart : Apart ms
  opkg : ∀ d, ⟨d, opt⟩ ∈ ms → ∃ w, ⟨d, usb w⟩ ∈ ms ∧ isOpkgDisk env w = true
  alone : ∀ m ∈ ms, ∀ m' ∈ ms, m.dir = opt → m'.dir = opt → m.dev = m'.dev

section
variable {env : Env} {ms : List Mount} {d : Part} {m : Mount} {w : Line}

theorem mem_entries : m ∈ entries ms d ↔ m ∈ ms ∧ m.dev = d := by simp [entries]

theorem usb_ne_opt (w : Line) : usb w ≠ opt := by
  intro h
  have := congrArg (·[1]?) h
  simp [usb, opt] at this

theorem usb_inj {v w : Line} (h : usb v = usb w) : v = w := List.append_cancel_left h

theorem Orderly.nil : Orderly env [] :=
  ⟨fun _ => .inl rfl, by simp [Apart], by simp, by simp⟩

/-- The partition is mounted on the folder and nowhere else under `/usb`. -/
theorem Orderly.folder (h : Orderly env ms) (hm : ⟨d, usb w⟩ ∈ ms) : DirName w ∧
    (entries ms d = [⟨d, usb w⟩] ∨ entries ms d = [⟨d, usb w⟩, ⟨d, opt⟩]) := by
  have hme : ⟨d, usb w⟩ ∈ entries ms d := mem_entries.mpr ⟨hm, rfl⟩
  rcases h.shape d with hnil | ⟨v, hv, hshape⟩
  · rw [hnil] at hme
    cases hme
  · have hvw : v = w := by
      rcases hshape with hs | hs
      · rw [hs] at hme
        exact usb_inj (congrArg Mount.dir (List.mem_singleton.mp hme)).symm
      · rw [hs] at hme
        rcases List.mem_cons.mp hme with he | he
        · exact usb_inj (congrArg Mount.dir he).symm
        · exact absurd (congrArg Mount.dir (List.mem_singleton.mp he)) (usb_ne_opt w)
    rw [← hvw]
    exact ⟨hv, hshape⟩

/-- A mounted partition has a folder of `/usb`. -/
theorem Orderly.mounted (h : Orderly env ms) (d : Part) :
    entries ms d = [] ∨ ∃ w, ⟨d, usb w⟩ ∈ ms := by
  rcases h.shape d with hs | ⟨w, -, hs⟩
  · exact .inl hs
  · have hfirst : ⟨d, usb w⟩ ∈ entries ms d := by rcases hs with hs | hs <;> simp [hs]
    exact .inr ⟨w, (mem_entries.mp hfirst).1⟩

theorem Orderly.mount (h : Orderly env ms) (hd : entries ms d = []) (hw : DirName w)
    (hfree : ∀ m ∈ ms, m.dir ≠ usb w) : Orderly env (ms ++ [⟨d, usb w⟩]) := by
  have hopt {m : Mount} (hm : m ∈ ms ++ [⟨d, usb w⟩]) (ho : m.dir = opt) : m ∈ ms := by
    rcases List.mem_append.mp hm with hm | hm
    · exact hm
    · rw [List.mem_singleton.mp hm] at ho
      exact absurd ho (usb_ne_opt w)
  refine ⟨fun e => ?_, fun m hm m' hm' he hu => ?_, fun e he => ?_,
    fun m hm m' hm' ho ho' => h.alone m (hopt hm ho) m' (hopt hm' ho') ho ho'⟩
  · by_cases hde : d = e
    · subst hde
      refine .inr ⟨w, hw, .inl ?_⟩
      simpa [entries] using hd
    · have hsame : entries (ms ++ [⟨d, usb w⟩]) e = entries ms e := by simp [entries, hde]
      rw [hsame]
      exact h.shape e
  · rcases List.mem_append.mp hm with hm | hm <;> rcases List.mem_append.mp hm' with hm' | hm'
    · exact h.apart m hm m' hm' he hu
    · exact absurd (he.trans (by rw [List.mem_singleton.mp hm'])) (hfree m hm)
    · exact absurd (he.symm.trans (by rw [List.mem_singleton.mp hm])) (hfree m' hm')
    · rw [List.mem_singleton.mp hm, List.mem_singleton.mp hm']
  · obtain ⟨v, hv, ho⟩ := h.opkg e (hopt he rfl)
    exact ⟨v, List.mem_append_left _ hv, ho⟩

theorem Orderly.bind (h : Orderly env ms) (hd : entries ms d = [⟨d, usb w⟩])
    (ho : isOpkgDisk env w = true) (hfree : ∀ m ∈ ms, m.dir ≠ opt) : Orderly env (ms ++ [⟨d, opt⟩]) := by
  have hm : ⟨d, usb w⟩ ∈ ms := (mem_entries.mp (hd ▸ List.mem_singleton_self _)).1
  have hopt : ¬ "/usb/".toList <+: opt := by decide
  have hdev {m : Mount} (hm : m ∈ ms ++ [⟨d, opt⟩]) (hmo : m.dir = opt) : m.dev = d := by
    rcases List.mem_append.mp hm with hm | hm
    · exact absurd hmo (hfree m hm)
    · rw [List.mem_singleton.mp hm]
  refine ⟨fun e => ?_, fun m hm m' hm' he hu => ?_, fun e he => ?_,
    fun m hm m' hm' hmo hmo' => (hdev hm hmo).trans (hdev hm' hmo').symm⟩
  · by_cases hde : d = e
    · subst hde
      refine .inr ⟨w, (h.folder hm).1, .inr ?_⟩
      have hadd : entries (ms ++ [⟨d, opt⟩]) d = entries ms d ++ [⟨d, opt⟩] := by simp [entries]
      rw [hadd, hd]
      rfl
    · have hsame : entries (ms ++ [⟨d, opt⟩]) e = entries ms e := by simp [entries, hde]
      rw [hsame]
      exact h.shape e
  · rcases List.mem_append.mp hm with hm | hm
    · rcases List.mem_append.mp hm' with hm' | hm'
      · exact h.apart m hm m' hm' he hu
      · rw [he, List.mem_singleton.mp hm'] at hu
        exact absurd hu hopt
    · rw [List.mem_singleton.mp hm] at hu
      exact absurd hu hopt
  · rcases List.mem_append.mp he with he | he
    · obtain ⟨v, hv, ho⟩ := h.opkg e he
      exact ⟨v, List.mem_append_left _ hv, ho⟩
    · obtain rfl : e = d := congrArg Mount.dev (List.mem_singleton.mp he)
      exact ⟨w, List.mem_append_left _ hm, ho⟩

/-- The entry of the opkg tree is the second of its partition. -/
theorem entries_unlink {xs ys : List Mount} {x : Mount} (hx : x.dir = opt)
    (h : xs ++ x :: ys = [] ∨ ∃ w, DirName w ∧
      (xs ++ x :: ys = [⟨d, usb w⟩] ∨ xs ++ x :: ys = [⟨d, usb w⟩, ⟨d, opt⟩])) :
    xs ++ ys = [] ∨ ∃ w, DirName w ∧ (xs ++ ys = [⟨d, usb w⟩] ∨ xs ++ ys = [⟨d, usb w⟩, ⟨d, opt⟩]) := by
  have hfirst {w : Line} {rest : List Mount} (hs : xs ++ x :: ys = ⟨d, usb w⟩ :: rest) :
      ∃ zs, xs = ⟨d, usb w⟩ :: zs ∧ zs ++ x :: ys = rest := by
    cases xs with
    | nil =>
      have hdir := congrArg Mount.dir (List.cons.inj hs).1
      exact absurd (hdir.symm.trans hx) (usb_ne_opt w)
    | cons y zs =>
      obtain ⟨rfl, hrest⟩ := List.cons.inj hs
      exact ⟨zs, rfl, hrest⟩
  rcases h with hs | ⟨w, hw, hs | hs⟩
  · simp at hs
  · obtain ⟨zs, -, hrest⟩ := hfirst hs
    simp at hrest
  · obtain ⟨zs, rfl, hrest⟩ := hfirst hs
    cases zs with
    | nil => exact .inr ⟨w, hw, .inl (by rw [(List.cons.inj hrest).2]; rfl)⟩
    | cons z zs => simp at hrest

theorem Orderly.unlink (h : Orderly env ms) : Orderly env (umount (fun m => m.dir = opt) ms) := by
  rcases umount_cases (fun m => m.dir = opt) ms with ⟨-, he⟩ | ⟨a, x, b, rfl, hx, -, he⟩
  · rw [he]
    exact h
  · have hx : x.dir = opt := of_decide_eq_true hx
    have hsub {m : Mount} (hm : m ∈ a ++ b) : m ∈ a ++ x :: b := by
      rcases List.mem_append.mp hm with hm | hm <;> simp [hm]
    rw [he]
    refine ⟨fun e => ?_, fun m hm m' hm' => h.apart m (hsub hm) m' (hsub hm'), fun e hopt => ?_,
      fun m hm m' hm' => h.alone m (hsub hm) m' (hsub hm')⟩
    · by_cases hxe : x.dev = e
      · have hent : entries (a ++ x :: b) e = entries a e ++ x :: entries b e := by
          simp [entries, hxe]
        have hnew : entries (a ++ b) e = entries a e ++ entries b e := by simp [entries]
        rw [hnew]
        exact entries_unlink hx (hent ▸ h.shape e)
      · have hsame : entries (a ++ b) e = entries (a ++ x :: b) e := by simp [entries, hxe]
        rw [hsame]
        exact h.shape e
    · obtain ⟨v, hv, ho⟩ := h.opkg e (hsub hopt)
      refine ⟨v, ?_, ho⟩
      rcases List.mem_append.mp hv with hv | hv
      · exact List.mem_append_left _ hv
      · rcases List.mem_cons.mp hv with hv | hv
        · exact absurd ((congrArg Mount.dir hv).trans hx) (usb_ne_opt v)
        · exact List.mem_append_right _ hv

/-- At most one tree is shown at `/opt`. -/
theorem Orderly.unlinked (h : Orderly env ms) (hm : m ∈ umount (fun m => m.dir = opt) ms) :
    m.dir ≠ opt := by
  rcases umount_cases (fun m => m.dir = opt) ms with ⟨hnone, he⟩ | ⟨a, x, b, rfl, hx, -, he⟩
  · rw [he] at hm
    exact of_decide_eq_false (hnone m hm)
  · intro hopt
    rw [he] at hm
    have hx : x.dir = opt := of_decide_eq_true hx
    have hmem : m ∈ a ++ x :: b := by
      rcases List.mem_append.mp hm with hm | hm <;> simp [hm]
    have hdev : m.dev = x.dev := h.alone m hmem x (by simp) hopt hx
    -- a second entry of the same partition at the same folder
    have htwo : 2 ≤ ((entries (a ++ x :: b) x.dev).filter fun m => m.dir = opt).length := by
      have hrest : m ∈ (entries (a ++ b) x.dev).filter fun m => m.dir = opt := by
        simp [mem_entries, hm, hdev, hopt]
      have hlen := List.length_pos_of_mem hrest
      simp only [entries, List.filter_append, List.length_append] at hlen ⊢
      simp only [List.filter_cons, hx, decide_true, ↓reduceIte, List.length_cons]
      omega
    rcases h.shape x.dev with hs | ⟨w, -, hs | hs⟩ <;> rw [hs] at htwo <;>
      simp [usb_ne_opt] at htwo

/-- What is mounted on the folders of a partition is the partition. -/
theorem Orderly.own (h : Orderly env ms) {m' : Mount} (hm : m ∈ ms) (hm' : m' ∈ ms)
    (hdir : m'.dir = m.dir) : m'.dev = m.dev := by
  have hent : m ∈ entries ms m.dev := mem_entries.mpr ⟨hm, rfl⟩
  have hcases : m.dir = opt ∨ "/usb/".toList <+: m.dir := by
    rcases h.shape m.dev with hs | ⟨w, -, hs | hs⟩
    all_goals
      rw [hs] at hent
      simp only [List.mem_cons, List.not_mem_nil, or_false] at hent
    · exact .inr ⟨w, congrArg Mount.dir hent.symm⟩
    · rcases hent with he | he
      · exact .inr ⟨w, congrArg Mount.dir he.symm⟩
      · exact .inl (congrArg Mount.dir he)
  rcases hcases with ho | hu
  · exact h.alone m' hm' m hm (hdir.trans ho) ho
  · exact h.apart m' hm' m hm hdir (hdir ▸ hu)

/-- Where its folders are its own, all entries of the partition go and no other. -/
theorem umountDevice_spec (h : ∀ m ∈ ms, ∀ m' ∈ ms, m.dev = d → m'.dir = m.dir → m'.dev = d) :
    entries (umountDevice d ms) d = [] ∧
      (umountDevice d ms).filter (fun m => m.dev ≠ d) = ms.filter fun m => m.dev ≠ d := by
  have hown : ∀ m ∈ (entries ms d).reverse, ∀ x ∈ ms, x.dir = m.dir →
      decide (x.dev = d) = true := by
    intro m hm x hx hdir
    obtain ⟨hm, hd⟩ := mem_entries.mp (List.mem_reverse.mp hm)
    exact decide_eq_true (h m hm x hx hd hdir)
  obtain ⟨hsame, hothers⟩ := umountFolders_filter hown
  simp only [decide_eq_true_eq] at hothers
  exact ⟨hsame.trans (umountFolders_self _), hothers⟩

/-- A partition whose entries all go. -/
theorem Orderly.drop {ms' : List Mount} (h : Orderly env ms)
    (hs : ∀ e, entries ms' e = entries ms e ∨ entries ms' e = []) : Orderly env ms' := by
  have hsame {m : Mount} (hm : m ∈ ms') : entries ms' m.dev = entries ms m.dev := by
    rcases hs m.dev with he | he
    · exact he
    · exact absurd (he ▸ mem_entries.mpr ⟨hm, rfl⟩ : m ∈ []) (by simp)
  have hsub {m : Mount} (hm : m ∈ ms') : m ∈ ms :=
    (mem_entries.mp (hsame hm ▸ mem_entries.mpr ⟨hm, rfl⟩)).1
  refine ⟨fun e => ?_, fun m hm m' hm' => h.apart m (hsub hm) m' (hsub hm'), fun e he => ?_,
    fun m hm m' hm' => h.alone m (hsub hm) m' (hsub hm')⟩
  · rcases hs e with he | he
    · rw [he]
      exact h.shape e
    · exact .inl he
  · obtain ⟨v, hv, ho⟩ := h.opkg e (hsub he)
    exact ⟨v, (mem_entries.mp (hsame he ▸ mem_entries.mpr ⟨hv, rfl⟩)).1, ho⟩

end

end SnakeOs.Disk
