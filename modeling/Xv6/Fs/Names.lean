/-
Link counts and dangling entries over whole runs of calls (`Sysfile`), from an image of `mkfs`.

- `nlink_eq_live_names`: in runs that make no entry in a directory without links, `nlink` is the number of names.
- `entry_in_unlinked_dir_leaks`: a file created in a removed directory keeps `nlink` 1 without a name in a live directory.
- `directories_keep_place`: in those runs a directory with links has one name, where its ".." says.
- `no_dangling_entries`: in runs that free no inode that is still some directory's "..", every entry is of an allocated
  inode at every step of every call, and no call panics with `ilock: no type`.
- `removed_parent_dangles`: with a removed current directory, removing its parent leaves ".." dangling, and the next
  lookup through it panics.
-/
import Xv6.Fs.Calls

namespace Xv6.Links

open Lib Lib.LockProg Sysfile

/-! ## Link counts -/

/-- **Link counts equal names.** -/
theorem nlink_eq_live_names {c : Cfg Kern} (h : Reach LinkedDirs c) (i : ℕ) (ha : (c.st.inode i).type ≠ .free) :
    (c.st.inode i).nlink.toInt = liveNames c.st.inode i ∧
      (0 < (c.st.inode i).nlink.toInt → ∃ d, (c.st.inode d).type = .dir ∧ 0 < (c.st.inode d).nlink.toInt ∧
        ∃ e ∈ (c.st.inode d).ents, e.inum = i ∧ e.name ≠ dot) := by
  obtain ⟨det, leak, hl⟩ := (reach_idle (m := .links) h).ledger
  have heq := hl.nlink_eq ha
  refine ⟨heq, fun hpos => ?_⟩
  obtain ⟨d, -, hd, hnames⟩ := liveNames_pos.mp (by omega : 0 < liveNames c.st.inode i)
  exact ⟨d, hd.1, hd.2, hnames⟩

instance (e : Ev) (s : Kern) : Decidable (LinkedDirs e s) :=
  match e with
  | .inc _ => inferInstanceAs (Decidable (_ ∧ (_ → _)))
  | .entry _ _ => inferInstanceAs (Decidable (_ ≠ _))
  | .silent | .put _ | .retake => .isTrue trivial

/-- "a", "d" and "e" -/
def nameA : List Byte := [0x61]
def nameD : List Byte := [0x64]
def nameE : List Byte := [0x65]

/-- path/name -/
def below (path name : List Byte) : List Byte := path ++ 0x2f :: name

theorem reach_of_any {g : Ev → Kern → Bool} {Guard : Ev → Kern → Prop} (hg : ∀ e s, g e s = true → Guard e s)
    {l : List (ℕ × Syscall)} {P : Cfg Kern → Bool} (h : (script g l ⟨boot [], ∅⟩).any P = true) :
    ∃ c, Reach Guard c ∧ P c = true := by
  cases hs : script g l ⟨boot [], ∅⟩ with
  | none => simp [hs] at h
  | some c => exact ⟨c, reach_script hg (.boot ⟨by decide, by simp, by simp⟩) hs, by simpa [hs] using h⟩

/-- a directory with a file that has two names -/
theorem nlink_eq_live_names_example : ∃ c, Reach LinkedDirs c ∧ (c.st.inode 3).nlink = 2 ∧
    (c.st.inode 3).nlink.toInt = liveNames c.st.inode 3 := by
  obtain ⟨c, hr, hc⟩ := reach_of_any (g := fun e s => decide (LinkedDirs e s)) (fun _ _ h => of_decide_eq_true h)
    (l := [(0, .mkdir nameD), (0, .open (below nameD nameA) O_CREATE), (0, .link (below nameD nameA) nameE)])
    (P := fun c => (c.st.inode 3).type ≠ .free ∧ (c.st.inode 3).nlink = 2) (by decide +kernel)
  obtain ⟨h1, h2⟩ := of_decide_eq_true hc
  exact ⟨c, hr, h2, (nlink_eq_live_names hr 3 h1).1⟩

/-- **A file created in a removed directory.** mkdir d, chdir d, unlink ../d, open(a, O_CREATE): inode 3 has `nlink` 1,
and its only entry is in inode 2, which has no links. -/
theorem entry_in_unlinked_dir_leaks : ∃ c, Reach (fun _ _ => True) c ∧ (c.st.inode 3).type = .file ∧
    (c.st.inode 3).nlink.toInt = 1 ∧ liveNames c.st.inode 3 = 0 := by
  obtain ⟨c, hr, hc⟩ := reach_of_any (g := fun _ _ => true) (fun _ _ _ => trivial)
    (l := [(0, .mkdir nameD), (0, .chdir nameD), (0, .unlink (below dotdot nameD)), (0, .open nameA O_CREATE)])
    (P := fun c => (c.st.inode 3).type = .file ∧ (c.st.inode 3).nlink.toInt = 1 ∧ liveNames c.st.inode 3 = 0)
    (by decide +kernel)
  exact ⟨c, hr, of_decide_eq_true hc⟩

/-! ## Directories -/

/-- **Every directory has its place.** It starts with "." and "..", only the root is its own ".."; with links it has one name,
in the directory that its ".." names, without it has neither name nor entries. -/
theorem directories_keep_place {c : Cfg Kern} (h : Reach LinkedDirs c) {d : ℕ} (hd : (c.st.inode d).type = .dir) :
    Dots d (c.st.inode d).ents ∧ (parent c.st.inode d = d ↔ d = ROOTINO) ∧
    (nameCount c.st.inode d = if ¬ 0 < (c.st.inode d).nlink.toInt ∨ d = ROOTINO then 0 else 1) ∧
    (∀ p, ∀ e ∈ (c.st.inode p).ents, names d e = true → parent c.st.inode d = p) ∧
    (¬ 0 < (c.st.inode d).nlink.toInt → ∀ e ∈ (c.st.inode d).ents.drop 2, e.inum = 0) := by
  obtain ⟨det, leak, hl⟩ := (reach_idle (m := .links) h).ledger
  refine ⟨hl.dots d hd (by simp), ⟨fun e => ?_, fun e => ?_⟩, ?_, fun p e he => hl.home p e he d hd, fun hz => ?_⟩
  · by_contra hr
    exact hl.up d hd hr e
  · rw [e]
    exact hl.root.2.1
  · rw [hl.name d hd (by simp)]
    simp only [hl.det_iff hd]
  · exact (hl.dead rfl d hd ((hl.det_iff hd).2 hz)).1

theorem directories_keep_place_mkdir : ∃ c, Reach LinkedDirs c ∧ (c.st.inode 2).type = .dir ∧ nameCount c.st.inode 2 = 1 := by
  obtain ⟨c, hr, hc⟩ := reach_of_any (g := fun e s => decide (LinkedDirs e s)) (fun _ _ h => of_decide_eq_true h)
    (l := [(0, .mkdir nameD)]) (P := fun c => (c.st.inode 2).type = .dir ∧ 0 < (c.st.inode 2).nlink.toInt) (by decide +kernel)
  obtain ⟨h1, h2⟩ := of_decide_eq_true hc
  exact ⟨c, hr, h1, (directories_keep_place hr h1).2.2.1.trans (if_neg (by simp [h2, ROOTINO]))⟩

/-! ## Dangling entries -/

/-- **No dangling directory entries.** -/
theorem no_dangling_entries {c : Cfg Kern} (h : Reach ParentsKept c) {p : ℕ} (hp : (c.st.proc p).isSome) (sc : Syscall) :
    (∀ d, (sc.code p).Visits ParentsKept c d → NoDangling d.st.inode) ∧ ¬ (sc.code p).Panics ParentsKept c .ilockNoType := by
  have hidle := reach_idle (m := .entries) h
  obtain ⟨hv, hx, -⟩ := triple_code sc c ⟨hidle, hp⟩ hidle.always
  exact ⟨fun d hd => hv d hd rfl, fun hpan => hx _ hpan rfl rfl⟩

instance (e : Ev) (s : Kern) : Decidable (ParentsKept e s) :=
  match e with
  | .inc _ => inferInstanceAs (Decidable (_ ≠ _))
  | .put i => inferInstanceAs (Decidable (s.frees i = true → ∀ d < NINODES, d ≠ i → (s.inode d).type = .dir →
      (s.inode d).ents[1]? ≠ some ⟨i, dotdot⟩))
  | .silent | .entry _ _ | .retake => .isTrue trivial

/-- the current directory is removed, and left again -/
theorem no_dangling_entries_example : ∃ c, Reach ParentsKept c ∧ (c.st.inode 2).type = .dir ∧
    (c.st.inode 2).nlink = 0 ∧ ¬ ((Syscall.chdir dotdot).code 0).Panics ParentsKept c .ilockNoType := by
  obtain ⟨c, hr, hc⟩ := reach_of_any (g := fun e s => decide (ParentsKept e s)) (fun _ _ h => of_decide_eq_true h)
    (l := [(0, .mkdir nameD), (0, .chdir nameD), (0, .unlink (below dotdot nameD))])
    (P := fun c => (c.st.proc 0).isSome ∧ (c.st.inode 2).type = .dir ∧ (c.st.inode 2).nlink = 0) (by decide +kernel)
  obtain ⟨h1, h2, h3⟩ := of_decide_eq_true hc
  exact ⟨c, hr, h2, h3, (no_dangling_entries hr h1 _).2⟩

/-- **The parent of a removed directory is removed.** mkdir d, mkdir d/e, chdir d/e, unlink /d/e, unlink /d: the ".." of
the current directory (inode 3) names inode 2, which is free, and chdir(..) panics. -/
theorem removed_parent_dangles : ∃ c, Reach (fun _ _ => True) c ∧ ¬ NoDangling c.st.inode ∧
    ((Syscall.chdir dotdot).code 0).Panics (fun _ _ => True) c .ilockNoType := by
  obtain ⟨c, hr, hc⟩ := reach_of_any (g := fun _ _ => true) (fun _ _ _ => trivial)
    (l := [(0, .mkdir nameD), (0, .mkdir (below nameD nameE)), (0, .chdir (below nameD nameE)),
      (0, .unlink (below (0x2f :: nameD) nameE)),
      (0, .unlink (0x2f :: nameD))])
    (P := fun c => (c.st.inode 3).type = .dir ∧ ⟨2, dotdot⟩ ∈ (c.st.inode 3).ents ∧ (c.st.inode 2).type = .free ∧
      (((Syscall.chdir dotdot).code 0).exec (fun _ _ => true) c).isPanic .ilockNoType = true) (by decide +kernel)
  obtain ⟨h1, h2, h3, h4⟩ := of_decide_eq_true hc
  exact ⟨c, hr, fun hnd => hnd 3 h1 _ h2 (by decide) h3, panics_of_exec (fun _ _ _ => trivial) h4⟩

end Xv6.Links
