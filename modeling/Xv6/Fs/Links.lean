/-
Link counts, names and parents: the invariant of the inode table behind `sys_link`, `sys_unlink` and `create`.

A directory entry accounts for a link of the inode it names unless it is "." or the ".." of a directory that has been
unlinked from its parent (`det`: unlink has given the parent's link back). So in every state
`nlink i = linkCount i + pend i + leak i`, where `pend` are the links a call in progress still owes or has not yet given
back, and `leak` are links whose entries were lost with the directory that held them. A directory has at most one name,
in the directory its ".." names, and a free inode is accounted for by no entry.

`Mode` selects what else is kept: `links` that no link leaks and an unlinked directory stays empty, `entries` that the
".." of an unlinked directory still names an allocated inode. One lemma for each way a call changes the table.
-/
import Xv6.Lib.Tally
import Xv6.Fs.Sysfile

namespace Xv6.Links

open Lib Sysfile List

abbrev Table := ℕ → Inode

def IsDir (T : Table) (d : ℕ) : Prop := (T d).type = .dir

def Alloc (T : Table) (i : ℕ) : Prop := (T i).type ≠ .free

theorem IsDir.alloc {T : Table} {d : ℕ} (h : IsDir T d) : Alloc T d := by
  unfold Alloc
  rw [h]
  simp

def ents (T : Table) : ℕ → List Dirent := fun d => (T d).ents

theorem ents_update (T : Table) (i : ℕ) (n : Inode) : ents (update T i n) = update (ents T) i n.ents := by
  funext d
  by_cases hd : d = i
  · subst hd; simp [ents]
  · simp [ents, hd]

/-- an entry that accounts for a link of `i`; `det` says that its directory has been unlinked -/
def links (det : Bool) (i : ℕ) (e : Dirent) : Bool :=
  e.inum = i ∧ e.name ≠ dot ∧ ¬ (det = true ∧ e.name = dotdot)

/-- an entry that names `i`, the dots apart -/
def names (i : ℕ) (e : Dirent) : Bool := e.inum = i ∧ e.name ≠ dot ∧ e.name ≠ dotdot

def linkCount (T : Table) (det : ℕ → Bool) (i : ℕ) : ℕ := tally NINODES (ents T) fun d => links (det d) i

def nameCount (T : Table) (i : ℕ) : ℕ := tally NINODES (ents T) fun _ => names i

/-- the inode ".." names -/
def parent (T : Table) (d : ℕ) : ℕ := ((ents T d)[1]?.map Dirent.inum).getD 0

/-- a directory starts with "." and "..", and has them nowhere else -/
def Dots (d : ℕ) (l : List Dirent) : Prop :=
  ∃ par rest, l = ⟨d, dot⟩ :: ⟨par, dotdot⟩ :: rest ∧ par ≠ 0 ∧
    ∀ e ∈ rest, e.inum ≠ 0 → e.name ≠ dot ∧ e.name ≠ dotdot

/-- which of the two claims the invariant is kept for -/
inductive Mode where
  | links
  | entries
  deriving DecidableEq

/-- the invariant; `fr` is a directory under construction -/
structure Ledger (m : Mode) (T : Table) (det : ℕ → Bool) (leak : ℕ → ℕ) (pend : Multiset ℕ) (fr : Option ℕ) : Prop where
  small : ∀ i, Alloc T i → 1 ≤ i ∧ i < NINODES
  flat : ∀ i, ¬ IsDir T i → ents T i = []
  root : IsDir T ROOTINO ∧ parent T ROOTINO = ROOTINO ∧ det ROOTINO = false ∧ fr ≠ some ROOTINO
  nlink : ∀ i, Alloc T i → (T i).nlink.toInt = linkCount T det i + pend.count i + leak i
  free : ∀ i, i ≠ 0 → ¬ Alloc T i → linkCount T det i = 0 ∧ pend.count i = 0 ∧ leak i = 0
  dots : ∀ d, IsDir T d → fr ≠ some d → Dots d (ents T d)
  name : ∀ d, IsDir T d → fr ≠ some d → nameCount T d = if det d = true ∨ d = ROOTINO then 0 else 1
  home : ∀ d, ∀ e ∈ ents T d, ∀ c, IsDir T c → names c e = true → parent T c = d
  up : ∀ d, IsDir T d → d ≠ ROOTINO → parent T d ≠ d
  fresh : ∀ d, fr = some d →
    IsDir T d ∧ det d = false ∧ linkCount T det d = 0 ∧ ∀ e ∈ ents T d, e.name = dot → e.inum = d
  exact : m = .links → ∀ i, i ≠ 0 → leak i = 0
  dead : m = .links → ∀ d, IsDir T d → det d = true → (∀ e ∈ (ents T d).drop 2, e.inum = 0) ∧ linkCount T det d = 0
  orphan : m = .entries → ∀ d, IsDir T d → fr ≠ some d → det d = true → Alloc T (parent T d)

/-! ## Counting -/

variable {b : Bool} {e x : Dirent} {j : ℕ} {n : Inode} {f : Dirent → Bool}

theorem names_le_links {i : ℕ} (h : names i e = true) : links b i e = true := by
  unfold names at h
  unfold links
  simp_all

theorem linkCount_pos {T : Table} {det : ℕ → Bool} {i : ℕ} :
    0 < linkCount T det i ↔ ∃ d < NINODES, ∃ e ∈ ents T d, links (det d) i e = true := tally_pos

theorem nameCount_pos {T : Table} {i : ℕ} : 0 < nameCount T i ↔ ∃ d < NINODES, ∃ e ∈ ents T d, names i e = true :=
  tally_pos

variable {m : Mode} {T : Table} {det : ℕ → Bool} {leak : ℕ → ℕ} {pend : Multiset ℕ} {fr : Option ℕ}

section

variable (h : Ledger m T det leak pend fr)
include h

theorem Ledger.isDir_of_mem {d : ℕ} (he : e ∈ ents T d) : IsDir T d := by
  by_contra hd
  simp [h.flat d hd] at he

theorem Ledger.lt_of_mem {d : ℕ} (he : e ∈ ents T d) : d < NINODES :=
  (h.small d (h.isDir_of_mem he).alloc).2

theorem Ledger.linkCount_pos_of_mem {d i : ℕ} (he : e ∈ ents T d) (hl : links (det d) i e = true) : 0 < linkCount T det i :=
  linkCount_pos.mpr ⟨d, h.lt_of_mem he, e, he, hl⟩

theorem Ledger.nameCount_pos_of_mem {d i : ℕ} (he : e ∈ ents T d) (hl : names i e = true) : 0 < nameCount T i :=
  nameCount_pos.mpr ⟨d, h.lt_of_mem he, e, he, hl⟩

theorem Ledger.alloc_of_linkCount {i : ℕ} (hi : i ≠ 0) (hl : 0 < linkCount T det i) : Alloc T i := by
  by_contra ha
  have := (h.free i hi ha).1
  omega

theorem Ledger.alloc_of_pend {i : ℕ} (hi : i ≠ 0) (hp : i ∈ pend) : Alloc T i := by
  by_contra ha
  have := (h.free i hi ha).2.1
  have := Multiset.count_pos.mpr hp
  omega

end

theorem parent_of_dots {d par : ℕ} {rest : List Dirent} (h : ents T d = ⟨d, dot⟩ :: ⟨par, dotdot⟩ :: rest) :
    parent T d = par := by
  simp [parent, h]

/-- an ordinary entry accounts for a link of the inode it names, and of no other -/
theorem links_mk {i : ℕ} {name : Name} (h : name ≠ dot ∧ name ≠ dotdot) : links b i ⟨j, name⟩ = decide (j = i) := by
  simp [links, h.1, h.2]

theorem names_mk {i : ℕ} {name : Name} (h : name ≠ dot ∧ name ≠ dotdot) : names i ⟨j, name⟩ = decide (j = i) := by
  simp [names, h.1, h.2]

theorem links_dot {i : ℕ} : links b i ⟨j, dot⟩ = false := by simp [links]

theorem links_dotdot {i : ℕ} : links false i ⟨j, dotdot⟩ = decide (j = i) := by
  simp [links, dot, dotdot]

theorem links_dotdot_det {i : ℕ} : links true i ⟨j, dotdot⟩ = false := by simp [links]

theorem names_dot {i : ℕ} : names i ⟨j, dot⟩ = false := by simp [names]

theorem names_dotdot {i : ℕ} : names i ⟨j, dotdot⟩ = false := by simp [names]

theorem linkCount_update {d : ℕ} (hd : d < NINODES) (n : Inode) (i : ℕ) :
    linkCount (update T d n) det i + (ents T d).countP (links (det d) i) =
      linkCount T det i + n.ents.countP (links (det d) i) := by
  unfold linkCount
  rw [ents_update]
  exact tally_update hd n.ents

theorem nameCount_update {d : ℕ} (hd : d < NINODES) (n : Inode) (i : ℕ) :
    nameCount (update T d n) i + (ents T d).countP (names i) = nameCount T i + n.ents.countP (names i) := by
  unfold nameCount
  rw [ents_update]
  exact tally_update hd n.ents

/-! ## Steps that leave the entries alone -/

theorem isDir_update_iff {d i : ℕ} (ht : n.type = (T i).type) : IsDir (update T i n) d ↔ IsDir T d := by
  by_cases h : d = i
  · subst h; simp [IsDir, ht]
  · simp [IsDir, h]

theorem alloc_update_iff {d i : ℕ} (ht : n.type = (T i).type) : Alloc (update T i n) d ↔ Alloc T d := by
  by_cases h : d = i
  · subst h; simp [Alloc, ht]
  · simp [Alloc, h]

theorem ents_update_same {i : ℕ} (he : n.ents = (T i).ents) : ents (update T i n) = ents T := by
  rw [ents_update, he]
  exact update_eq_self i (ents T)

/-- new fields of an inode whose type and entries stay, when the links it is owed account for its `nlink` -/
theorem Ledger.relink (h : Ledger m T det leak pend fr) {i : ℕ} {pend' : Multiset ℕ}
    (ht : n.type = (T i).type) (he : n.ents = (T i).ents) (hp : ∀ j, j ≠ i → pend'.count j = pend.count j)
    (hn : n.nlink.toInt = linkCount T det i + pend'.count i + leak i) (ha : Alloc T i) :
    Ledger m (update T i n) det leak pend' fr := by
  have hents := ents_update_same he
  have hdir : ∀ d, IsDir (update T i n) d ↔ IsDir T d := fun d => isDir_update_iff ht
  have hall : ∀ d, Alloc (update T i n) d ↔ Alloc T d := fun d => alloc_update_iff ht
  have hlink : linkCount (update T i n) det = linkCount T det := by unfold linkCount; rw [hents]
  have hname : nameCount (update T i n) = nameCount T := by unfold nameCount; rw [hents]
  have hpar : parent (update T i n) = parent T := by unfold parent; rw [hents]
  constructor <;> try simp only [hdir, hall, hents, hlink, hname, hpar]
  · exact h.small
  · exact h.flat
  · exact h.root
  · intro j hj
    by_cases hji : j = i
    · subst hji
      rw [update_self, hn]
    · rw [update_of_ne hji, h.nlink j hj, hp j hji]
  · intro j hj hf
    have hji : j ≠ i := fun e => hf (e ▸ ha)
    rw [hp j hji]
    exact h.free j hj hf
  · exact h.dots
  · exact h.name
  · exact h.home
  · exact h.up
  · exact h.fresh
  · exact h.exact
  · exact h.dead
  · exact h.orphan

theorem toInt_succ {x : BitVec 16} (h : x ≠ 0x7fff) : (x + 1).toInt = x.toInt + 1 := by
  have hx : x.toNat ≠ 0x7fff := fun e => h (BitVec.eq_of_toNat_eq e)
  have := x.isLt
  have h1 : (1 : BitVec 16).toNat = 1 := rfl
  simp only [BitVec.toInt, BitVec.toNat_add, h1]
  split_ifs <;> omega

theorem toInt_pred {x : BitVec 16} (h : 1 ≤ x.toInt) : (x - 1).toInt = x.toInt - 1 := by
  have := x.isLt
  have h1 : (1 : BitVec 16).toNat = 1 := rfl
  simp only [BitVec.toInt, BitVec.toNat_sub, h1] at h ⊢
  split_ifs at h ⊢ <;> omega

/-- `nlink++` of an inode that is not at the 16-bit limit: a link is owed -/
theorem Ledger.inc (h : Ledger m T det leak pend fr) {i : ℕ} (ha : Alloc T i) (hn : (T i).nlink ≠ 0x7fff) :
    Ledger m (update T i { T i with nlink := (T i).nlink + 1 }) det leak (i ::ₘ pend) fr := by
  refine h.relink ?_ ?_ ?_ ?_ ha
  · rfl
  · rfl
  · intro j hj
    exact Multiset.count_cons_of_ne hj pend
  · rw [toInt_succ hn, h.nlink i ha, Multiset.count_cons_self]
    omega

theorem Ledger.dec {i : ℕ} (h : Ledger m T det leak (i ::ₘ pend) fr) (ha : Alloc T i) :
    Ledger m (update T i { T i with nlink := (T i).nlink - 1 }) det leak pend fr := by
  have hn := h.nlink i ha
  rw [Multiset.count_cons_self] at hn
  refine h.relink ?_ ?_ ?_ ?_ ha
  · rfl
  · rfl
  · intro j hj
    exact (Multiset.count_cons_of_ne hj pend).symm
  · have : 1 ≤ (T i).nlink.toInt := by omega
    rw [toInt_pred this, hn]
    omega

/-- `ip->nlink = 1` in a new inode: the link of the name it will get -/
theorem Ledger.init (h : Ledger m T det leak pend fr) {i : ℕ} (ha : Alloc T i) (h0 : (T i).nlink = 0) (ht : n.type = (T i).type)
    (he : n.ents = (T i).ents) (hn : n.nlink = 1) : Ledger m (update T i n) det leak (i ::ₘ pend) fr := by
  have hz := h.nlink i ha
  rw [h0] at hz
  change (0 : ℤ) = _ at hz
  refine h.relink ht he ?_ ?_ ha
  · intro j hj
    exact Multiset.count_cons_of_ne hj pend
  · rw [hn, Multiset.count_cons_self]
    have : (1 : BitVec 16).toInt = 1 := rfl
    omega

theorem Ledger.alloc (h : Ledger m T det leak pend none) {i : ℕ} {t : IType} (hf : ¬ Alloc T i) (hi : 1 ≤ i ∧ i < NINODES) :
    Ledger m (update T i { type := t }) (update det i false) leak pend
      (if t = .dir then some i else none) := by
  set T' := update T i { type := t } with hT'
  set det' := update det i false with hdet'
  have hi0 : i ≠ 0 := by omega
  have hndir : ¬ IsDir T i := fun hd => hf hd.alloc
  have hroot : ROOTINO ≠ i := fun e => hndir (e ▸ h.root.1)
  have hents : ents T' = ents T := by
    rw [hT', ents_update, ← h.flat i hndir]
    exact update_eq_self i (ents T)
  have hlink : linkCount T' det' = linkCount T det := by
    funext j
    unfold linkCount
    rw [hents]
    have := tally_update_pred (n := NINODES) (d := i) (L := ents T) (f := fun d => links (det' d) j)
      (g := fun d => links (det d) j) hi.2 (fun x hx => by rw [hdet', update_of_ne hx])
    simpa [h.flat i hndir] using this
  have hname : nameCount T' = nameCount T := by unfold nameCount; rw [hents]
  have hpar : parent T' = parent T := by unfold parent; rw [hents]
  have hself : ∀ d, d = i → (T' d).type = t := by rintro d rfl; simp [hT']
  have hother : ∀ d, d ≠ i → T' d = T d := fun d hd => by simp [hT', hd]
  have hdet : ∀ d, d ≠ i → det' d = det d := fun d hd => by simp [hdet', hd]
  have hdir : ∀ d, d ≠ i → (IsDir T' d ↔ IsDir T d) := fun d hd => by simp [IsDir, hother d hd]
  have hall : ∀ d, d ≠ i → (Alloc T' d ↔ Alloc T d) := fun d hd => by simp [Alloc, hother d hd]
  -- the new inode is the directory under construction if it is one at all
  have hfr : ∀ d, IsDir T' d → (if t = .dir then some i else none) ≠ some d → d ≠ i := by
    rintro d hd hne rfl
    have : t = .dir := (hself d rfl).symm.trans hd
    simp [this] at hne
  constructor <;> try simp only [hents, hlink, hname, hpar]
  · intro j hj
    by_cases hji : j = i
    · exact hji ▸ hi
    · exact h.small j ((hall j hji).mp hj)
  · intro j hj
    by_cases hji : j = i
    · exact hji ▸ h.flat i hndir
    · exact h.flat j fun hd => hj ((hdir j hji).mpr hd)
  · refine ⟨(hdir _ hroot).mpr h.root.1, h.root.2.1, (hdet _ hroot).trans h.root.2.2.1, ?_⟩
    split_ifs <;> simp [Ne.symm hroot]
  · intro j hj
    by_cases hji : j = i
    · obtain ⟨h1, h2, h3⟩ := h.free i hi0 hf
      subst hji
      simp [hT', h1, h2, h3]
    · rw [hother j hji]
      exact h.nlink j ((hall j hji).mp hj)
  · intro j hj hf'
    by_cases hji : j = i
    · exact hji ▸ h.free i hi0 hf
    · exact h.free j hj fun ha => hf' ((hall j hji).mpr ha)
  · intro d hd hne
    exact h.dots d ((hdir d (hfr d hd hne)).mp hd) (by simp)
  · intro d hd hne
    have hdi := hfr d hd hne
    rw [hdet d hdi]
    exact h.name d ((hdir d hdi).mp hd) (by simp)
  · intro d e he c hc hn
    by_cases hci : c = i
    · have hpos := h.linkCount_pos_of_mem he (names_le_links (b := det d) hn)
      rw [hci, (h.free i hi0 hf).1] at hpos
      omega
    · exact h.home d e he c ((hdir c hci).mp hc) hn
  · intro d hd hr
    by_cases hdi : d = i
    · have : parent T i = 0 := by simp [parent, h.flat i hndir]
      rw [hdi, this]
      exact Ne.symm hi0
    · exact h.up d ((hdir d hdi).mp hd) hr
  · intro d hd
    split_ifs at hd with hdt
    obtain rfl : i = d := by simpa using hd
    exact ⟨(hself i rfl).trans hdt, by simp [hdet'], (h.free i hi0 hf).1, by simp [h.flat i hndir]⟩
  · exact h.exact
  · intro hm d hd hdd
    have hdi : d ≠ i := by
      rintro rfl
      simp [hdet'] at hdd
    exact h.dead hm d ((hdir d hdi).mp hd) (hdet d hdi ▸ hdd)
  · intro hm d hd hne hdd
    have hdi := hfr d hd hne
    have hp := h.orphan hm d ((hdir d hdi).mp hd) (by simp) (hdet d hdi ▸ hdd)
    exact (hall _ fun e => hf (e ▸ hp)).mpr hp

/-! ## The entries of a directory change -/

/-- the table with other entries in directory `d` -/
def setEnts (T : Table) (d : ℕ) (l : List Dirent) : Table := update T d { T d with ents := l }

section

variable {d : ℕ} {l : List Dirent}

theorem ents_setEnts : ents (setEnts T d l) = update (ents T) d l := ents_update T d _

@[simp] theorem ents_setEnts_self : ents (setEnts T d l) d = l := by simp [ents_setEnts]

theorem ents_setEnts_of_ne {c : ℕ} (h : c ≠ d) : ents (setEnts T d l) c = ents T c := by simp [ents_setEnts, h]

@[simp] theorem isDir_setEnts {c : ℕ} : IsDir (setEnts T d l) c ↔ IsDir T c := isDir_update_iff rfl

@[simp] theorem alloc_setEnts {c : ℕ} : Alloc (setEnts T d l) c ↔ Alloc T c := alloc_update_iff rfl

@[simp] theorem nlink_setEnts {c : ℕ} : (setEnts T d l c).nlink = (T c).nlink := by
  by_cases h : c = d
  · subst h; simp [setEnts]
  · simp [setEnts, h]

theorem parent_setEnts_of_ne {c : ℕ} (h : c ≠ d) : parent (setEnts T d l) c = parent T c := by
  unfold parent
  rw [ents_setEnts_of_ne h]

theorem linkCount_setEnts (hd : d < NINODES) (det : ℕ → Bool) (l : List Dirent) (i : ℕ) :
    linkCount (setEnts T d l) det i + (ents T d).countP (links (det d) i) =
      linkCount T det i + l.countP (links (det d) i) := linkCount_update hd _ i

theorem nameCount_setEnts (hd : d < NINODES) (l : List Dirent) (i : ℕ) :
    nameCount (setEnts T d l) i + (ents T d).countP (names i) = nameCount T i + l.countP (names i) :=
  nameCount_update hd _ i

end

theorem names_eq_false_of_dots {i : ℕ} (h : e.name = dot ∨ e.name = dotdot) : names i e = false := by
  unfold names
  simp only [decide_eq_false_iff_not]
  tauto

theorem countP_names_eq_zero {l : List Dirent} {i : ℕ} (h : ∀ e ∈ l, e.name = dot ∨ e.name = dotdot) :
    l.countP (names i) = 0 := by
  rw [countP_eq_zero]
  intro e he
  simp [names_eq_false_of_dots (h e he)]

/-- "." and ".." in a directory under construction, when what they account for was owed -/
theorem Ledger.build {l : List Dirent} {pend' : Multiset ℕ} (h : Ledger m T det leak pend (some j))
    (hold : ∀ e ∈ ents T j, e.name = dot ∨ e.name = dotdot) (hnew : ∀ e ∈ l, e.name = dot ∨ e.name = dotdot)
    (hlink : ∀ i, linkCount (setEnts T j l) det i + pend'.count i = linkCount T det i + pend.count i)
    (hself : ∀ e ∈ l, e.name = dot → e.inum = j) (hj : linkCount (setEnts T j l) det j = 0) (hup : parent (setEnts T j l) j ≠ j)
    (hdead : m = .links → ∀ d, det d = true → linkCount (setEnts T j l) det d = linkCount T det d) :
    Ledger m (setEnts T j l) det leak pend' (some j) := by
  obtain ⟨hdir, hdet, -, -⟩ := h.fresh j rfl
  have hjn : j < NINODES := (h.small j hdir.alloc).2
  have hname : ∀ i, nameCount (setEnts T j l) i = nameCount T i := by
    intro i
    have := nameCount_setEnts (T := T) hjn l i
    rw [countP_names_eq_zero hold, countP_names_eq_zero hnew] at this
    omega
  have hroot : ROOTINO ≠ j := fun e => h.root.2.2.2 (by rw [e])
  constructor <;> try simp only [isDir_setEnts, alloc_setEnts, nlink_setEnts, hname]
  · exact h.small
  · intro i hi
    have hij : i ≠ j := fun e => hi (e ▸ hdir)
    rw [ents_setEnts_of_ne hij]
    exact h.flat i hi
  · rw [parent_setEnts_of_ne hroot]
    exact h.root
  · intro i hi
    have := hlink i
    rw [h.nlink i hi]
    omega
  · intro i hi hf
    have := hlink i
    obtain ⟨h1, h2, h3⟩ := h.free i hi hf
    omega
  · intro d hd hne
    have hdj : d ≠ j := fun e => hne (by rw [e])
    rw [ents_setEnts_of_ne hdj]
    exact h.dots d hd hne
  · exact h.name
  · intro d e he c hc hn
    by_cases hdj : d = j
    · subst hdj
      rw [ents_setEnts_self] at he
      simp [names_eq_false_of_dots (hnew e he)] at hn
    · rw [ents_setEnts_of_ne hdj] at he
      -- no entry names the new directory yet
      have hcj : c ≠ j := by
        rintro rfl
        have := h.linkCount_pos_of_mem he (names_le_links hn)
        have := (h.fresh c rfl).2.2.1
        omega
      rw [parent_setEnts_of_ne hcj]
      exact h.home d e he c hc hn
  · intro d hd hr
    by_cases hdj : d = j
    · exact hdj ▸ hup
    · rw [parent_setEnts_of_ne hdj]
      exact h.up d hd hr
  · rintro d ⟨⟩
    exact ⟨hdir, hdet, hj, by simpa using hself⟩
  · exact h.exact
  · intro hm d hd hdd
    have hdj : d ≠ j := by
      rintro rfl
      simp [hdet] at hdd
    rw [ents_setEnts_of_ne hdj, hdead hm d hdd]
    exact h.dead hm d hd hdd
  · intro hm d hd hne hdd
    have hdj : d ≠ j := fun e => hne (by rw [e])
    rw [parent_setEnts_of_ne hdj]
    exact h.orphan hm d hd hne hdd

theorem Ledger.addDot (h : Ledger m T det leak pend (some j)) (he : ents T j = []) :
    Ledger m (setEnts T j [⟨j, dot⟩]) det leak pend (some j) := by
  obtain ⟨hdir, -, hj, -⟩ := h.fresh j rfl
  obtain ⟨hj0, hjn⟩ := h.small j hdir.alloc
  have hlink : ∀ i, linkCount (setEnts T j [⟨j, dot⟩]) det i = linkCount T det i := by
    intro i
    simpa [he, links_dot] using linkCount_setEnts (T := T) hjn det [⟨j, dot⟩] i
  apply h.build
  · simp [he]
  · simp
  · simp [hlink]
  · simp
  · rw [hlink, hj]
  · simp [parent]
    omega
  · intro _ d _
    exact hlink d

theorem Ledger.addDotdot {dp : ℕ} (h : Ledger m T det leak (dp ::ₘ pend) (some j)) (he : ents T j = [⟨j, dot⟩]) (hne : dp ≠ j)
    (hlive : m = .links → det dp = false) : Ledger m (setEnts T j [⟨j, dot⟩, ⟨dp, dotdot⟩]) det leak pend (some j) := by
  obtain ⟨hdir, hdet, hj, -⟩ := h.fresh j rfl
  have hjn := (h.small j hdir.alloc).2
  have hlink : ∀ i, linkCount (setEnts T j [⟨j, dot⟩, ⟨dp, dotdot⟩]) det i =
      linkCount T det i + if dp = i then 1 else 0 := by
    intro i
    have := linkCount_setEnts (T := T) hjn det [⟨j, dot⟩, ⟨dp, dotdot⟩] i
    simpa [he, links_dot, links_dotdot, hdet, countP_cons] using this
  apply h.build
  · simp [he]
  · simp
  · intro i
    rw [hlink, Multiset.count_cons]
    by_cases hi : dp = i
    · simp [hi]; omega
    · simp [hi, Ne.symm hi]
  · simp [dot, Sysfile.dotdot]
  · rw [hlink, hj, if_neg hne]
  · simpa [parent] using hne
  · intro hm d hdd
    have : dp ≠ d := by
      rintro rfl
      simp [hlive hm] at hdd
    rw [hlink, if_neg this, Nat.add_zero]

/-! ## `addEntry` -/

theorem countP_set_unused {l : List Dirent} {k : ℕ} (hk : l[k]? = some x)
    (hx : f x = false) : (l.set k e).countP f = l.countP f + if f e = true then 1 else 0 := by
  obtain ⟨hlt, rfl⟩ := List.getElem?_eq_some_iff.mp hk
  simp [countP_set hlt, hx]

theorem countP_addEntry {l : List Dirent} (hf : ∀ x, x.inum = 0 → f x = false) :
    (addEntry l e).countP f = l.countP f + if f e = true then 1 else 0 := by
  unfold addEntry
  by_cases hlt : (l.findIdx fun x => x.inum == 0) < l.length
  · have hx := findIdx_getElem (w := hlt)
    simp only [hlt, if_true]
    exact countP_set_unused (getElem?_eq_getElem hlt) (hf _ (by simpa using hx))
  · simp only [hlt, if_false]
    rw [countP_append, countP_singleton]

theorem mem_addEntry {l : List Dirent} (h : x ∈ addEntry l e) : x ∈ l ∨ x = e := by
  unfold addEntry at h
  simp only at h
  split_ifs at h
  · exact mem_or_eq_of_mem_set h
  · simpa using h

theorem addEntry_cons {l : List Dirent} (hx : x.inum ≠ 0) : addEntry (x :: l) e = x :: addEntry l e := by
  have hb : (x.inum == 0) = false := by simpa using hx
  unfold addEntry
  simp only [findIdx_cons, hb, cond_false, length_cons, Nat.add_lt_add_iff_right, set_cons_succ,
    cons_append]
  split_ifs <;> rfl

theorem links_of_unused {i : ℕ} (hi : i ≠ 0) (hx : x.inum = 0) : links b i x = false := by
  simp [links, hx, Ne.symm hi]

theorem names_of_unused {i : ℕ} (hi : i ≠ 0) (hx : x.inum = 0) : names i x = false := by
  simp [names, hx, Ne.symm hi]

theorem Dots.addEntry {d : ℕ} {l : List Dirent} (h : Dots d l) (hd : d ≠ 0)
    (he : e.name ≠ dot ∧ e.name ≠ dotdot) : Dots d (addEntry l e) := by
  obtain ⟨par, rest, rfl, hpar, hrest⟩ := h
  refine ⟨par, Sysfile.addEntry rest e, ?_, hpar, ?_⟩
  · rw [addEntry_cons hd, addEntry_cons hpar]
  · intro x hx hu
    obtain hx | rfl := mem_addEntry hx
    · exact hrest x hx hu
    · exact he

theorem Dots.addEntry_get {d : ℕ} {l : List Dirent} (h : Dots d l) (hd : d ≠ 0) : (Sysfile.addEntry l e)[1]? = l[1]? := by
  obtain ⟨par, rest, rfl, hpar, -⟩ := h
  rw [addEntry_cons hd, addEntry_cons hpar]
  rfl

/-- an inode owed a link gets its name: one that is not a directory, or the directory under construction -/
theorem Ledger.addName {dp ip : ℕ} {name : Name} (h : Ledger m T det leak (ip ::ₘ pend) fr) (hd : IsDir T dp) (hdf : fr ≠ some dp)
    (hname : name ≠ dot ∧ name ≠ dotdot) (hnew : fr = none ∧ ¬ IsDir T ip ∨ fr = some ip ∧ Dots ip (ents T ip) ∧ parent T ip = dp)
    (hlive : m = .links → det dp = false) : Ledger m (setEnts T dp (addEntry (ents T dp) ⟨ip, name⟩)) det leak pend none := by
  set T' := setEnts T dp (addEntry (ents T dp) ⟨ip, name⟩) with hT'
  obtain ⟨hd1, hdn⟩ := h.small dp hd.alloc
  have hdots := h.dots dp hd hdf
  have hlink : ∀ i, i ≠ 0 → linkCount T' det i = linkCount T det i + if ip = i then 1 else 0 := by
    intro i hi
    have := linkCount_setEnts (T := T) hdn det (addEntry (ents T dp) ⟨ip, name⟩) i
    rw [countP_addEntry (f := links (det dp) i) fun x hx => links_of_unused hi hx, links_mk hname, ← hT'] at this
    simp only [decide_eq_true_eq] at this
    omega
  have hnames : ∀ i, i ≠ 0 → nameCount T' i = nameCount T i + if ip = i then 1 else 0 := by
    intro i hi
    have := nameCount_setEnts (T := T) hdn (addEntry (ents T dp) ⟨ip, name⟩) i
    rw [countP_addEntry (f := names i) fun x hx => names_of_unused hi hx, names_mk hname, ← hT'] at this
    simp only [decide_eq_true_eq] at this
    omega
  have hpar : ∀ c, parent T' c = parent T c := by
    intro c
    by_cases hc : c = dp
    · subst hc
      unfold parent
      rw [hT', ents_setEnts_self, hdots.addEntry_get (by omega)]
    · exact parent_setEnts_of_ne hc
  -- a directory named here is the one under construction, which had no name before
  have hfresh : ∀ c, IsDir T c → (fr = some c ∨ c = ip) →
      c = ip ∧ Dots ip (ents T ip) ∧ parent T ip = dp ∧ det ip = false ∧ nameCount T ip = 0 ∧ ip ≠ ROOTINO := by
    intro c hc hor
    obtain ⟨hf, hn⟩ | ⟨hf, hdt, hp⟩ := hnew
    · obtain hor | rfl := hor
      · simp [hf] at hor
      · exact absurd hc hn
    · have hci : c = ip := by
        obtain hor | hor := hor
        · rw [hf] at hor
          exact (Option.some.inj hor).symm
        · exact hor
      obtain ⟨-, hdet, hl, -⟩ := h.fresh ip hf
      refine ⟨hci, hdt, hp, hdet, ?_, fun e => h.root.2.2.2 (e ▸ hf)⟩
      by_contra hpos
      obtain ⟨d, -, e, he, hn⟩ := nameCount_pos.mp (Nat.pos_of_ne_zero hpos)
      have := h.linkCount_pos_of_mem he (names_le_links (b := det d) hn)
      omega
  constructor <;> try simp only [hT', isDir_setEnts, alloc_setEnts, nlink_setEnts]
  · exact h.small
  · intro i hi
    have hne : i ≠ dp := fun e => hi (e ▸ hd)
    rw [ents_setEnts_of_ne hne]
    exact h.flat i hi
  · exact ⟨h.root.1, (hpar ROOTINO).trans h.root.2.1, h.root.2.2.1, by simp⟩
  · intro i hi
    have := h.small i hi
    rw [h.nlink i hi, ← hT', hlink i (by omega), Multiset.count_cons]
    by_cases hii : ip = i
    · rw [if_pos hii, if_pos hii.symm]; omega
    · rw [if_neg hii, if_neg (Ne.symm hii)]; omega
  · intro i hi hf
    obtain ⟨h1, h2, h3⟩ := h.free i hi hf
    rw [Multiset.count_cons] at h2
    rw [← hT', hlink i hi]
    by_cases hii : ip = i
    · simp [hii] at h2
    · simp [hii, Ne.symm hii] at h2 ⊢
      exact ⟨h1, h2, h3⟩
  · intro d hdd _
    by_cases hne : d = dp
    · subst hne
      rw [ents_setEnts_self]
      exact hdots.addEntry (by omega) hname
    · rw [ents_setEnts_of_ne hne]
      by_cases hfd : fr = some d
      · obtain ⟨rfl, hdt, -⟩ := hfresh d hdd (.inl hfd)
        exact hdt
      · exact h.dots d hdd hfd
  · intro d hdd _
    have := h.small d hdd.alloc
    rw [← hT', hnames d (by omega)]
    by_cases hii : ip = d
    · obtain ⟨-, -, -, h1, h2, h3⟩ := hfresh d hdd (.inr hii.symm)
      simp [← hii, h1, h2, h3]
    · have hfd : fr ≠ some d := fun e => hii (hfresh d hdd (.inl e)).1.symm
      rw [if_neg hii, Nat.add_zero]
      exact h.name d hdd hfd
  · intro d e he c hc hn
    rw [← hT', hpar]
    by_cases hne : d = dp
    · subst hne
      rw [ents_setEnts_self] at he
      obtain he | rfl := mem_addEntry he
      · exact h.home d e he c hc hn
      · rw [names_mk hname, decide_eq_true_eq] at hn
        obtain ⟨-, -, hp, -⟩ := hfresh c hc (.inr hn.symm)
        exact hn ▸ hp
    · rw [ents_setEnts_of_ne hne] at he
      exact h.home d e he c hc hn
  · intro d hdd hr
    rw [← hT', hpar]
    exact h.up d hdd hr
  · simp
  · exact h.exact
  · intro hm d hdd hdet
    have hne : d ≠ dp := by
      rintro rfl
      simp [hlive hm] at hdet
    have hii : ip ≠ d := by
      rintro rfl
      simp [(hfresh _ hdd (.inr rfl)).2.2.2.1] at hdet
    have := h.small d hdd.alloc
    rw [ents_setEnts_of_ne hne, ← hT', hlink d (by omega), if_neg hii, Nat.add_zero]
    exact h.dead hm d hdd hdet
  · intro hm d hdd _ hdet
    have hfd : fr ≠ some d := by
      intro e
      obtain ⟨rfl, -, -, hf, -⟩ := hfresh d hdd (.inl e)
      simp [hf] at hdet
    rw [← hT', hpar]
    exact h.orphan hm d hdd hfd hdet

/-! ## `sys_unlink` clears an entry -/

/-- the unused entry `sys_unlink` writes -/
def unused : Dirent := ⟨0, []⟩

theorem countP_set_used {l : List Dirent} {k : ℕ} (hk : l[k]? = some x)
    (hf : f unused = false) : (l.set k unused).countP f + (if f x = true then 1 else 0) = l.countP f := by
  obtain ⟨hlt, rfl⟩ := List.getElem?_eq_some_iff.mp hk
  have hpos : f l[k] = true → 0 < l.countP f := fun h => countP_pos_iff.mpr ⟨_, getElem_mem hlt, h⟩
  rw [countP_set hlt, hf]
  by_cases hx : f l[k] = true
  · have := hpos hx
    simp [hx]
    omega
  · simp [hx]

theorem Dots.two_le {d k : ℕ} {l : List Dirent} (h : Dots d l) (hk : l[k]? = some e)
    (he : e.name ≠ dot ∧ e.name ≠ dotdot) : 2 ≤ k := by
  obtain ⟨par, rest, rfl, -, -⟩ := h
  match k with
  | 0 => exact absurd (by simpa using congrArg (Option.map Dirent.name) hk.symm) he.1
  | 1 => exact absurd (by simpa using congrArg (Option.map Dirent.name) hk.symm) he.2
  | k + 2 => omega

theorem Dots.clear {d k : ℕ} {l : List Dirent} (h : Dots d l) (hk : 2 ≤ k) :
    Dots d (l.set k unused) ∧ (l.set k unused)[1]? = l[1]? := by
  obtain ⟨par, rest, rfl, hpar, hrest⟩ := h
  obtain ⟨k, rfl⟩ := Nat.exists_eq_add_of_le' hk
  refine ⟨⟨par, rest.set k unused, rfl, hpar, ?_⟩, rfl⟩
  intro e he hu
  obtain he | rfl := mem_or_eq_of_mem_set he
  · exact hrest e he hu
  · exact absurd rfl hu

/-- the entry of a directory that accounts for a link of its parent is its ".." -/
theorem Dots.countP_links {d i : ℕ} {l : List Dirent} (h : Dots d l) (hi : i ≠ 0) :
    l.countP (links false i) = l.countP (links true i) + if (l[1]?.map Dirent.inum).getD 0 = i then 1 else 0 := by
  obtain ⟨par, rest, rfl, -, hrest⟩ := h
  have hsame : rest.countP (links false i) = rest.countP (links true i) := by
    apply countP_congr
    intro e he
    by_cases hu : e.inum = 0
    · rw [links_of_unused hi hu, links_of_unused hi hu]
    · simp [links, (hrest e he hu).2]
  simp [countP_cons, links_dot, links_dotdot, links_dotdot_det, hsame]

theorem Dots.of_isdirempty {d : ℕ} {l : List Dirent} (h : Dots d l) (hl : isdirempty l = true) (he : e ∈ l)
    (hu : e.inum ≠ 0) : e.name = dot ∨ e.name = dotdot := by
  obtain ⟨par, rest, rfl, -, -⟩ := h
  simp only [isdirempty, drop_succ_cons, drop_zero, all_eq_true, beq_iff_eq] at hl
  simp only [mem_cons] at he
  obtain rfl | rfl | he := he
  · exact .inl rfl
  · exact .inr rfl
  · exact absurd (hl e he) hu

theorem Dots.dotdot_eq {d : ℕ} {l : List Dirent} (h : Dots d l) (he : e ∈ l) (hu : e.inum ≠ 0)
    (hn : e.name = dotdot) : (l[1]?.map Dirent.inum).getD 0 = e.inum := by
  obtain ⟨par, rest, rfl, -, hrest⟩ := h
  simp only [mem_cons] at he
  obtain rfl | rfl | he := he
  · simp [dot, dotdot] at hn
  · rfl
  · exact absurd hn (hrest e he hu).2

section

variable {dp ip off : ℕ} {name : Name}

/-- a directory with a name is linked, under the directory its ".." names -/
theorem Ledger.named (h : Ledger m T det leak pend none) (he : (ents T dp)[off]? = some ⟨ip, name⟩)
    (hname : name ≠ dot ∧ name ≠ dotdot) (hdir : IsDir T ip) :
    det ip = false ∧ ip ≠ ROOTINO ∧ nameCount T ip = 1 ∧ parent T ip = dp ∧ ip ≠ dp := by
  have hmem := mem_of_getElem? he
  have hn : names ip ⟨ip, name⟩ = true := by simp [names_mk hname]
  have hpos := h.nameCount_pos_of_mem hmem hn
  have hpar := h.home dp _ hmem ip hdir hn
  have hone := h.name ip hdir (by simp)
  split_ifs at hone with hor
  · omega
  · have hroot : ip ≠ ROOTINO := fun e => hor (.inr e)
    refine ⟨by simpa using fun e => hor (.inl e), hroot, hone, hpar, ?_⟩
    rintro rfl
    exact h.up ip hdir hroot hpar

theorem linkCount_clear (det : ℕ → Bool) (hdn : dp < NINODES) (he : (ents T dp)[off]? = some ⟨ip, name⟩)
    (hname : name ≠ dot ∧ name ≠ dotdot) (i : ℕ) (hi : i ≠ 0) :
    linkCount (setEnts T dp ((ents T dp).set off unused)) det i + (if ip = i then 1 else 0) = linkCount T det i := by
  have h1 := linkCount_setEnts (T := T) hdn det ((ents T dp).set off unused) i
  have h2 := countP_set_used he (links_of_unused (b := det dp) hi rfl)
  rw [links_mk hname] at h2
  simp only [decide_eq_true_eq] at h2
  omega

theorem nameCount_clear (hdn : dp < NINODES) (he : (ents T dp)[off]? = some ⟨ip, name⟩)
    (hname : name ≠ dot ∧ name ≠ dotdot) (i : ℕ) (hi : i ≠ 0) :
    nameCount (setEnts T dp ((ents T dp).set off unused)) i + (if ip = i then 1 else 0) = nameCount T i := by
  have h1 := nameCount_setEnts (T := T) hdn ((ents T dp).set off unused) i
  have h2 := countP_set_used he (names_of_unused hi rfl)
  rw [names_mk hname] at h2
  simp only [decide_eq_true_eq] at h2
  omega

theorem parent_clear (h : Dots dp (ents T dp)) (hoff : 2 ≤ off) (c : ℕ) :
    parent (setEnts T dp ((ents T dp).set off unused)) c = parent T c := by
  by_cases hc : c = dp
  · subst hc
    unfold parent
    rw [ents_setEnts_self, (h.clear hoff).2]
  · exact parent_setEnts_of_ne hc

theorem mem_ents_clear {d : ℕ} {e : Dirent} (he : e ∈ ents (setEnts T dp ((ents T dp).set off unused)) d) :
    e ∈ ents T d ∨ e = unused := by
  by_cases hd : d = dp
  · subst hd
    rw [ents_setEnts_self] at he
    exact mem_or_eq_of_mem_set he
  · rw [ents_setEnts_of_ne hd] at he
    exact .inl he

section

variable (h : Ledger m T det leak pend none)
include h

/-- an entry is cleared: its link is owed back, and with the name of a directory, which is then unlinked (`det'`), what
its ".." accounted for (`back`) -/
theorem Ledger.clear (det' : ℕ → Bool) (back : Multiset ℕ) (hd : IsDir T dp)
    (he : (ents T dp)[off]? = some ⟨ip, name⟩) (hname : name ≠ dot ∧ name ≠ dotdot) (hip : ip ≠ 0)
    (hdet : ∀ d, d ≠ ip → det' d = det d) (hdetip : IsDir T ip → det' ip = true)
    (hempty : IsDir T ip → isdirempty (ents T ip) = true)
    (hlink : ∀ i, i ≠ 0 → linkCount (setEnts T dp ((ents T dp).set off unused)) det' i + back.count i =
      linkCount (setEnts T dp ((ents T dp).set off unused)) det i)
    (hzero : IsDir T ip → linkCount (setEnts T dp ((ents T dp).set off unused)) det' ip = 0) :
    Ledger m (setEnts T dp ((ents T dp).set off unused)) det' leak (ip ::ₘ (back + pend)) none := by
  have hdn := (h.small dp hd.alloc).2
  have hdots := h.dots dp hd (by simp)
  have hoff := hdots.two_le he hname
  have hsum : ∀ i, i ≠ 0 → linkCount (setEnts T dp ((ents T dp).set off unused)) det' i +
      (ip ::ₘ (back + pend)).count i = linkCount T det i + pend.count i := by
    intro i hi
    have h1 := hlink i hi
    have h2 := linkCount_clear det hdn he hname i hi
    rw [Multiset.count_cons, Multiset.count_add]
    by_cases hii : ip = i
    · rw [if_pos hii] at h2
      rw [if_pos hii.symm]
      omega
    · rw [if_neg hii] at h2
      rw [if_neg (Ne.symm hii)]
      omega
  have hroot : ROOTINO ≠ ip := by
    rintro rfl
    exact (h.named he hname h.root.1).2.1 rfl
  constructor <;> try simp only [isDir_setEnts, alloc_setEnts, nlink_setEnts, parent_clear hdots hoff]
  · exact h.small
  · intro i hi
    have hne : i ≠ dp := fun e => hi (e ▸ hd)
    rw [ents_setEnts_of_ne hne]
    exact h.flat i hi
  · exact ⟨h.root.1, h.root.2.1, (hdet _ hroot).trans h.root.2.2.1, by simp⟩
  · intro i hi
    have := h.small i hi
    have := hsum i (by omega)
    rw [h.nlink i hi]
    omega
  · intro i hi hf
    obtain ⟨h1, h2, h3⟩ := h.free i hi hf
    have := hsum i hi
    omega
  · intro d hdd _
    by_cases hne : d = dp
    · subst hne
      rw [ents_setEnts_self]
      exact (hdots.clear hoff).1
    · rw [ents_setEnts_of_ne hne]
      exact h.dots d hdd (by simp)
  · intro d hdd _
    have := h.small d hdd.alloc
    have hn := nameCount_clear hdn he hname d (by omega)
    by_cases hii : ip = d
    · subst hii
      obtain ⟨-, -, hone, -⟩ := h.named he hname hdd
      simp [hdetip hdd] at hn ⊢
      omega
    · rw [if_neg hii, Nat.add_zero] at hn
      rw [hn, hdet d (Ne.symm hii)]
      exact h.name d hdd (by simp)
  · intro d e hed c hc hn
    obtain hed | rfl := mem_ents_clear hed
    · exact h.home d e hed c hc hn
    · have := h.small c hc.alloc
      simp [names_of_unused (i := c) (by omega) (x := unused) rfl] at hn
  · exact h.up
  · simp
  · exact h.exact
  · intro hm d hdd hdt
    by_cases hii : d = ip
    · subst hii
      have hne := (h.named he hname hdd).2.2.2.2
      rw [ents_setEnts_of_ne hne]
      refine ⟨?_, hzero hdd⟩
      simpa [isdirempty] using hempty hdd
    · rw [hdet d hii] at hdt
      obtain ⟨h1, h2⟩ := h.dead hm d hdd hdt
      have hne : d ≠ dp := by
        rintro rfl
        obtain ⟨k, rfl⟩ := Nat.exists_eq_add_of_le hoff
        exact hip (h1 ⟨ip, name⟩ (mem_of_getElem? (getElem?_drop.trans he)))
      have := h.small d hdd.alloc
      have hl := hlink d (by omega)
      have hc := linkCount_clear det hdn he hname d (by omega)
      rw [ents_setEnts_of_ne hne]
      exact ⟨h1, by omega⟩
  · intro hm d hdd _ hdt
    by_cases hii : d = ip
    · subst hii
      rw [(h.named he hname hdd).2.2.2.1]
      exact hd.alloc
    · rw [hdet d hii] at hdt
      exact h.orphan hm d hdd (by simp) hdt

theorem Ledger.unlinkFile (hd : IsDir T dp) (he : (ents T dp)[off]? = some ⟨ip, name⟩) (hname : name ≠ dot ∧ name ≠ dotdot)
    (hip : ip ≠ 0) (hfile : ¬ IsDir T ip) : Ledger m (setEnts T dp ((ents T dp).set off unused)) det leak (ip ::ₘ pend) none := by
  have := h.clear det 0 hd he hname hip (fun _ _ => rfl) (fun hdir => absurd hdir hfile)
    (fun hdir => absurd hdir hfile) (fun i _ => by simp) (fun hdir => absurd hdir hfile)
  rwa [zero_add] at this

/-- nothing accounts for a link of a directory without name and without entries -/
theorem Ledger.linkCount_unlinked (hd : IsDir T dp) (he : (ents T dp)[off]? = some ⟨ip, name⟩)
    (hname : name ≠ dot ∧ name ≠ dotdot) (hdir : IsDir T ip) (hempty : isdirempty (ents T ip) = true) :
    linkCount (setEnts T dp ((ents T dp).set off unused)) (update det ip true) ip = 0 := by
  obtain ⟨-, -, hone, -, -⟩ := h.named he hname hdir
  obtain ⟨hi1, -⟩ := h.small ip hdir.alloc
  have hdn := (h.small dp hd.alloc).2
  by_contra hpos
  obtain ⟨d, hdlt, e, hed, hl⟩ := linkCount_pos.mp (Nat.pos_of_ne_zero hpos)
  simp only [links, decide_eq_true_eq] at hl
  obtain ⟨hei, hn1, hn2⟩ := hl
  by_cases hdd : e.name = dotdot
  · -- the ".." of a linked directory `d`: its name would be an entry of `ip`
    have hdip : d ≠ ip := by
      rintro rfl
      simp [hdd] at hn2
    have hdet : det d = false := by simpa [hdip, hdd] using hn2
    have hed' : e ∈ ents T d := by
      obtain hed | rfl := mem_ents_clear hed
      · exact hed
      · simp [unused] at hei
        omega
    have hdird := h.isDir_of_mem hed'
    have hpar : parent T d = ip := ((h.dots d hdird (by simp)).dotdot_eq hed' (by omega) hdd).trans hei
    have hroot : d ≠ ROOTINO := by
      rintro rfl
      exact hdip (h.root.2.1.symm.trans hpar)
    have hnd := h.name d hdird (by simp)
    simp only [hdet, hroot, Bool.false_eq_true, or_self, if_false] at hnd
    obtain ⟨d2, -, e2, he2, hn⟩ := nameCount_pos.mp (by omega : 0 < nameCount T d)
    have hd2 := h.home d2 e2 he2 d hdird hn
    rw [hpar] at hd2
    subst hd2
    simp only [names, decide_eq_true_eq] at hn
    obtain ⟨hd1, -⟩ := h.small d hdird.alloc
    have := (h.dots ip hdir (by simp)).of_isdirempty hempty he2 (by omega)
    exact this.elim hn.2.1 hn.2.2
  · have hn : names ip e = true := by simp [names, hei, hn1, hdd]
    have hpos' : 0 < nameCount (setEnts T dp ((ents T dp).set off unused)) ip := nameCount_pos.mpr ⟨d, hdlt, e, hed, hn⟩
    have := nameCount_clear hdn he hname ip (by omega)
    rw [if_pos rfl] at this
    omega

/-- `sys_unlink` of an empty directory: its ".." no longer accounts for a link of the parent -/
theorem Ledger.unlinkDir (hd : IsDir T dp) (he : (ents T dp)[off]? = some ⟨ip, name⟩) (hname : name ≠ dot ∧ name ≠ dotdot)
    (hdir : IsDir T ip) (hempty : isdirempty (ents T ip) = true) :
    Ledger m (setEnts T dp ((ents T dp).set off unused)) (update det ip true) leak (ip ::ₘ dp ::ₘ pend) none := by
  obtain ⟨hdet, -, -, hpar, hne⟩ := h.named he hname hdir
  obtain ⟨hi1, hin⟩ := h.small ip hdir.alloc
  have hdots := h.dots ip hdir (by simp)
  have := h.clear (update det ip true) {dp} hd he hname (by omega)
    (fun d hd => update_of_ne hd _ _) (fun _ => update_self _ _ _) (fun _ => hempty) ?_
    (fun _ => h.linkCount_unlinked hd he hname hdir hempty)
  · rwa [Multiset.singleton_add] at this
  · intro i hi
    have hp := tally_update_pred (n := NINODES) (d := ip) (L := ents (setEnts T dp ((ents T dp).set off unused)))
      (f := fun d => links (update det ip true d) i) (g := fun d => links (det d) i) hin
      (fun x hx => by rw [update_of_ne hx])
    have hl := hdots.countP_links hi
    change _ = _ + if parent T ip = i then 1 else 0 at hl
    rw [hpar] at hl
    simp only [update_self, hdet, ents_setEnts_of_ne hne] at hp
    unfold linkCount
    rw [Multiset.count_singleton]
    by_cases hii : i = dp
    · rw [if_pos hii.symm] at hl
      rw [if_pos hii]
      omega
    · rw [if_neg (Ne.symm hii)] at hl
      rw [if_neg hii]
      omega

end

end

/-! ## `iput` frees an inode -/

/-- the table after `itrunc` and `type = 0` -/
def release (T : Table) (i : ℕ) : Table := update T i { T i with type := .free, ents := [] }

section

variable {i : ℕ}

theorem ents_release_self : ents (release T i) i = [] := by simp [ents, release]

theorem ents_release_of_ne {d : ℕ} (h : d ≠ i) : ents (release T i) d = ents T d := by simp [ents, release, h]

theorem release_of_ne {d : ℕ} (h : d ≠ i) : release T i d = T d := by simp [release, h]

theorem isDir_release {d : ℕ} : IsDir (release T i) d ↔ d ≠ i ∧ IsDir T d := by
  by_cases h : d = i
  · subst h; simp [IsDir, release]
  · simp [IsDir, release_of_ne h, h]

theorem alloc_release {d : ℕ} : Alloc (release T i) d ↔ d ≠ i ∧ Alloc T d := by
  by_cases h : d = i
  · subst h; simp [Alloc, release]
  · simp [Alloc, release_of_ne h, h]

theorem parent_release {d : ℕ} (h : d ≠ i) : parent (release T i) d = parent T d := by
  unfold parent
  rw [ents_release_of_ne h]

section

variable (h : Ledger m T det leak pend none)
include h

theorem Ledger.linkCount_parent {d : ℕ} (hd : IsDir T d) (hdet : det d = false) : 0 < linkCount T det (parent T d) := by
  obtain ⟨par, rest, he, -⟩ := h.dots d hd (by simp)
  have hmem : (⟨par, dotdot⟩ : Dirent) ∈ ents T d := by simp [he]
  rw [parent_of_dots he]
  exact h.linkCount_pos_of_mem hmem (by simp [hdet, links_dotdot])

theorem Ledger.det_of_linkCount (hd : IsDir T i) (h0 : linkCount T det i = 0) : i ≠ ROOTINO ∧ det i = true := by
  have hroot : i ≠ ROOTINO := by
    rintro rfl
    have := h.linkCount_parent h.root.1 h.root.2.2.1
    rw [h.root.2.1] at this
    omega
  refine ⟨hroot, ?_⟩
  by_contra hdet
  have hone := h.name i hd (by simp)
  simp only [hdet, hroot, or_self, if_false] at hone
  obtain ⟨d, hd, e, he, hn⟩ := nameCount_pos.mp (by omega : 0 < nameCount T i)
  have := h.linkCount_pos_of_mem he (names_le_links (b := det d) hn)
  omega

/-- an inode without links is freed, with every directory that has it as its parent already gone; the links its entries
accounted for leak -/
theorem Ledger.release (ha : Alloc T i) (hz : (T i).nlink = 0) (hchild : m = .entries → ∀ d, IsDir T d → d ≠ i → parent T d ≠ i) :
    ∃ leak', Ledger m (release T i) det leak' pend none := by
  obtain ⟨hi1, hin⟩ := h.small i ha
  have hnl := h.nlink i ha
  rw [hz] at hnl
  change (0 : ℤ) = _ at hnl
  have hl0 : linkCount T det i = 0 := by omega
  have hlink : ∀ j, linkCount (Links.release T i) det j + (ents T i).countP (links (det i) j) = linkCount T det j :=
    fun j => (linkCount_update hin _ j).trans (by rw [countP_nil, Nat.add_zero])
  have hname : ∀ j, nameCount (Links.release T i) j + (ents T i).countP (names j) = nameCount T j :=
    fun j => (nameCount_update hin _ j).trans (by rw [countP_nil, Nat.add_zero])
  have hroot : ROOTINO ≠ i := by
    rintro rfl
    exact (h.det_of_linkCount h.root.1 hl0).1 rfl
  -- no directory has its name here: it would account for a link of its parent
  have hnodir : ∀ d, IsDir T d → (ents T i).countP (names d) = 0 := by
    intro d hd
    rw [countP_eq_zero]
    intro e he hn
    have hpar := h.home i e he d hd hn
    have hpos := h.nameCount_pos_of_mem he hn
    have hone := h.name d hd (by simp)
    split_ifs at hone with hor
    · omega
    · have := h.linkCount_parent hd (by simpa using fun e => hor (.inl e))
      rw [hpar] at this
      omega
  refine ⟨fun j => leak j + (ents T i).countP (links (det i) j), ?_⟩
  constructor <;> try simp only [isDir_release, alloc_release]
  · intro j hj
    exact h.small j hj.2
  · intro j hj
    by_cases hji : j = i
    · rw [hji, ents_release_self]
    · rw [ents_release_of_ne hji]
      exact h.flat j fun hd => hj ⟨hji, hd⟩
  · rw [parent_release hroot]
    exact ⟨⟨hroot, h.root.1⟩, h.root.2⟩
  · rintro j ⟨hji, hj⟩
    have := hlink j
    rw [release_of_ne hji, h.nlink j hj]
    push_cast
    omega
  · intro j hj hf
    have hsum : linkCount T det j = 0 ∧ pend.count j = 0 ∧ leak j = 0 := by
      by_cases hji : j = i
      · subst hji
        omega
      · exact h.free j hj fun ha => hf ⟨hji, ha⟩
    have := hlink j
    omega
  · rintro d ⟨hdi, hd⟩ _
    rw [ents_release_of_ne hdi]
    exact h.dots d hd (by simp)
  · rintro d ⟨hdi, hd⟩ _
    have := hname d
    rw [hnodir d hd, Nat.add_zero] at this
    rw [this]
    exact h.name d hd (by simp)
  · rintro d e he c ⟨hci, hc⟩ hn
    have hdi : d ≠ i := by
      rintro rfl
      simp [ents_release_self] at he
    rw [ents_release_of_ne hdi] at he
    rw [parent_release hci]
    exact h.home d e he c hc hn
  · rintro d ⟨hdi, hd⟩ hr
    rw [parent_release hdi]
    exact h.up d hd hr
  · simp
  · intro hm j hj
    rw [h.exact hm j hj, Nat.zero_add, countP_eq_zero]
    intro e he hl
    have hdir := h.isDir_of_mem he
    obtain ⟨-, hdet⟩ := h.det_of_linkCount hdir hl0
    have hdead := (h.dead hm i hdir hdet).1
    obtain ⟨par, rest, hents, -⟩ := h.dots i hdir (by simp)
    rw [hents] at he hdead
    simp only [mem_cons] at he
    obtain rfl | rfl | he := he
    · simp [links_dot] at hl
    · simp [hdet, links_dotdot_det] at hl
    · simp [links_of_unused hj (hdead e he)] at hl
  · rintro hm d ⟨hdi, hd⟩ hdet
    obtain ⟨h1, h2⟩ := h.dead hm d hd hdet
    have := hlink d
    rw [ents_release_of_ne hdi]
    exact ⟨h1, by omega⟩
  · rintro hm d ⟨hdi, hd⟩ _ hdet
    rw [parent_release hdi]
    exact ⟨hchild hm d hd hdi, h.orphan hm d hd (by simp) hdet⟩

end

end

/-! ## The image of `mkfs` -/

section

variable {files : List Name}

/-- the entries of the files in the root directory -/
def fileEnts (files : List Name) : List Dirent := files.mapIdx fun k name => ⟨k + 2, name⟩

theorem mem_fileEnts {e : Dirent} (he : e ∈ fileEnts files) : 2 ≤ e.inum ∧ e.name ∈ files := by
  obtain ⟨k, hk, rfl⟩ := mem_mapIdx.mp he
  exact ⟨by simp, getElem_mem hk⟩

theorem countP_fileEnts (h1 : dot ∉ files) (h2 : dotdot ∉ files) (i : ℕ) :
    (fileEnts files).countP (links false i) = if 2 ≤ i ∧ i < files.length + 2 then 1 else 0 := by
  induction files using List.reverseRecOn with
  | nil =>
    simp [fileEnts]
    omega
  | append_singleton l name ih =>
    simp only [mem_append, mem_singleton, not_or] at h1 h2
    have hname : name ≠ dot ∧ name ≠ dotdot := ⟨Ne.symm h1.2, Ne.symm h2.2⟩
    have he : fileEnts (l ++ [name]) = fileEnts l ++ [⟨l.length + 2, name⟩] := mapIdx_concat
    rw [he, countP_append, ih h1.1 h2.1, countP_singleton, links_mk hname]
    simp only [decide_eq_true_eq, length_append, length_singleton]
    split_ifs <;> omega

theorem mkfs_type (files : List Name) (i : ℕ) : (mkfsInode files i).type =
    if i = ROOTINO then .dir else if 2 ≤ i ∧ i < files.length + 2 then .file else .free := by
  unfold mkfsInode
  split_ifs <;> rfl

theorem mkfs_isDir {d : ℕ} : IsDir (mkfsInode files) d ↔ d = ROOTINO := by
  unfold IsDir
  rw [mkfs_type]
  split_ifs <;> simp_all

theorem mkfs_alloc {i : ℕ} : Alloc (mkfsInode files) i ↔ 1 ≤ i ∧ i < files.length + 2 := by
  unfold Alloc
  rw [mkfs_type]
  split_ifs with h1 h2
  · simp [h1, ROOTINO]
  · simp; omega
  · simp [ROOTINO] at h1 ⊢; omega

theorem mkfs_nlink {i : ℕ} (h : Alloc (mkfsInode files) i) : (mkfsInode files i).nlink = 1 := by
  have := mkfs_alloc.mp h
  unfold mkfsInode
  split_ifs with h1 h2
  · rfl
  · rfl
  · simp [ROOTINO] at h1
    omega

theorem mkfs_ents (files : List Name) : ∃ n, ents (mkfsInode files) = update (fun _ => []) ROOTINO
      (⟨ROOTINO, dot⟩ :: ⟨ROOTINO, dotdot⟩ :: (fileEnts files ++ List.replicate n unused)) := by
  refine ⟨BSIZE / DIRENTSIZE - ((fileEnts files).length + 1 + 1) % (BSIZE / DIRENTSIZE), ?_⟩
  funext d
  by_cases hd : d = ROOTINO
  · subst hd
    simp [ents, mkfsInode, fileEnts, unused]
  · simp only [ents, mkfsInode, hd, if_false, update_of_ne, ne_eq, not_false_eq_true]
    split_ifs <;> rfl

/-- the root accounts for its own link through "..", and for one link of each file -/
theorem mkfs_linkCount (h : MkfsNames files) {i : ℕ} (hi : i ≠ 0) :
    linkCount (mkfsInode files) (fun _ => false) i = if i < files.length + 2 then 1 else 0 := by
  obtain ⟨-, hdot, hdotdot⟩ := h
  obtain ⟨n, hents⟩ := mkfs_ents files
  have hroot : ROOTINO < NINODES := by decide
  have hun : (List.replicate n unused).countP (links false i) = 0 := by
    rw [countP_eq_zero]
    intro e he
    rw [eq_of_mem_replicate he]
    simp [links_of_unused (b := false) hi (x := unused) rfl]
  have hrest : ∀ d ∈ (Finset.range NINODES).erase ROOTINO, (ents (mkfsInode files) d).countP (links false i) = 0 := by
    intro d hd
    rw [hents, update_of_ne (Finset.ne_of_mem_erase hd), countP_nil]
  unfold linkCount
  rw [tally_eq_add hroot, Finset.sum_eq_zero hrest, hents, update_self, countP_cons, countP_cons,
    countP_append, countP_fileEnts hdot hdotdot, hun, links_dot, links_dotdot]
  simp only [decide_eq_true_eq, Bool.false_eq_true, if_false]
  by_cases h1 : ROOTINO = i
  · have : i = 1 := h1.symm
    rw [if_pos h1, if_neg (by omega), if_pos (by omega)]
    rfl
  · have : i ≠ 1 := Ne.symm h1
    rw [if_neg h1]
    split_ifs <;> omega

theorem ledger_mkfs (h : MkfsNames files) : Ledger m (mkfsInode files) (fun _ => false) (fun _ => 0) 0 none := by
  obtain ⟨n, hents⟩ := mkfs_ents files
  have hroot : ents (mkfsInode files) ROOTINO =
      ⟨ROOTINO, dot⟩ :: ⟨ROOTINO, dotdot⟩ :: (fileEnts files ++ List.replicate n unused) := by
    rw [hents, update_self]
  have hrest : ∀ e ∈ fileEnts files ++ List.replicate n unused, e.inum ≠ 0 →
      e.inum ≠ ROOTINO ∧ e.name ≠ dot ∧ e.name ≠ dotdot := by
    intro e he hu
    obtain he | he := mem_append.mp he
    · obtain ⟨h2, hmem⟩ := mem_fileEnts he
      refine ⟨by simp [ROOTINO]; omega, ?_, ?_⟩
      · exact fun e => h.2.1 (e ▸ hmem)
      · exact fun e => h.2.2 (e ▸ hmem)
    · rw [eq_of_mem_replicate he] at hu
      exact absurd rfl hu
  have hnone : ∀ d, ∀ e ∈ ents (mkfsInode files) d, names ROOTINO e = false := by
    intro d e he
    by_cases hd : d = ROOTINO
    · subst hd
      rw [hroot, mem_cons, mem_cons] at he
      obtain rfl | rfl | he := he
      · exact names_dot
      · exact names_dotdot
      · by_cases hu : e.inum = 0
        · exact names_of_unused (by decide) hu
        · simp [names, (hrest e he hu).1]
    · rw [hents, update_of_ne hd] at he
      simp at he
  constructor <;> try simp only [mkfs_isDir]
  · intro i hi
    have := mkfs_alloc.mp hi
    have := h.1
    omega
  · intro i hi
    rw [hents, update_of_ne hi]
  · exact ⟨trivial, parent_of_dots hroot, by simp⟩
  · intro i hi
    obtain ⟨h1, h2⟩ := mkfs_alloc.mp hi
    rw [mkfs_nlink hi, mkfs_linkCount h (by omega), if_pos h2]
    rfl
  · intro i hi hf
    rw [mkfs_linkCount h hi, if_neg fun h2 => hf (mkfs_alloc.mpr ⟨by omega, h2⟩)]
    simp
  · rintro d rfl _
    rw [hroot]
    exact ⟨_, _, rfl, by decide, fun e he hu => (hrest e he hu).2⟩
  · rintro d rfl _
    rw [if_pos (.inr rfl)]
    by_contra hpos
    obtain ⟨d, -, e, he, hn⟩ := nameCount_pos.mp (Nat.pos_of_ne_zero hpos)
    simp [hnone d e he] at hn
  · rintro d e he c rfl hn
    simp [hnone d e he] at hn
  · intro d hd hr
    exact absurd hd hr
  · simp
  · simp
  · simp
  · simp

end

/-! ## What the invariant says -/

/-- every used entry of a directory is of an allocated inode -/
def NoDangling (T : Table) : Prop := ∀ d, IsDir T d → ∀ e ∈ ents T d, e.inum ≠ 0 → Alloc T e.inum

theorem Ledger.noDangling (h : Ledger .entries T det leak pend fr) : NoDangling T := by
  intro d hd e he hu
  have hlinks : ∀ i, e.inum = i → links (det d) i e = true → Alloc T i := by
    rintro i rfl hl
    exact h.alloc_of_linkCount hu (h.linkCount_pos_of_mem he hl)
  by_cases hf : fr = some d
  · obtain ⟨-, hdet, -, hself⟩ := h.fresh d hf
    by_cases hdot : e.name = dot
    · rw [hself e he hdot]
      exact hd.alloc
    · exact hlinks _ rfl (by simp [links, hdot, hdet])
  · obtain ⟨par, rest, hents, -, hrest⟩ := h.dots d hd hf
    have hpar := parent_of_dots hents
    have he' := he
    rw [hents] at he'
    simp only [mem_cons] at he'
    obtain rfl | rfl | he' := he'
    · exact hd.alloc
    · by_cases hdet : det d = true
      · have := h.orphan rfl d hd hf hdet
        rwa [hpar] at this
      · exact hlinks par rfl (by simp [hdet, links_dotdot])
    · have := hrest e he' hu
      exact hlinks _ rfl (by simp [links, this.1, this.2])

/-- the entries with inode number `i` and another name than ".", over the directories whose own `nlink` is positive -/
def liveNames (T : Table) (i : ℕ) : ℕ :=
  ∑ d ∈ Finset.range NINODES, if (T d).type = .dir ∧ 0 < (T d).nlink.toInt then
    (T d).ents.countP fun e => e.inum = i ∧ e.name ≠ dot else 0

theorem liveNames_pos {i : ℕ} : 0 < liveNames T i ↔
    ∃ d < NINODES, ((T d).type = .dir ∧ 0 < (T d).nlink.toInt) ∧ ∃ e ∈ (T d).ents, e.inum = i ∧ e.name ≠ dot := by
  unfold liveNames
  rw [Finset.sum_pos_iff]
  refine exists_congr fun d => ?_
  rw [Finset.mem_range]
  refine and_congr_right fun _ => ?_
  split_ifs with hd
  · simp [hd, countP_pos_iff]
  · simp [hd]

theorem Ledger.det_iff (h : Ledger .links T det leak 0 none) {d : ℕ} (hd : IsDir T d) :
    det d = true ↔ ¬ 0 < (T d).nlink.toInt := by
  have hd1 := h.small d hd.alloc
  have hn := h.nlink d hd.alloc
  rw [h.exact rfl d (by omega), Multiset.count_zero] at hn
  constructor
  · intro hdet
    have := (h.dead rfl d hd hdet).2
    omega
  · intro hz
    exact (h.det_of_linkCount hd (by omega)).2

theorem Ledger.nlink_eq (h : Ledger .links T det leak 0 none) {i : ℕ} (ha : Alloc T i) : (T i).nlink.toInt = liveNames T i := by
  have hi := h.small i ha
  rw [h.nlink i ha, h.exact rfl i (by omega), Multiset.count_zero]
  have : linkCount T det i = liveNames T i := by
    unfold linkCount liveNames tally
    refine Finset.sum_congr rfl fun d _ => ?_
    by_cases hd : IsDir T d
    · by_cases hdet : det d = true
      · have hnl := (h.det_iff hd).mp hdet
        rw [if_neg fun hc => hnl hc.2, countP_eq_zero]
        intro e he hl
        obtain ⟨par, rest, hents, -⟩ := h.dots d hd (by simp)
        have hdead := (h.dead rfl d hd hdet).1
        rw [hents] at he hdead
        simp only [mem_cons] at he
        obtain rfl | rfl | he := he
        · simp [links_dot] at hl
        · simp [hdet, links_dotdot_det] at hl
        · simp [links_of_unused (i := i) (by omega) (hdead e he)] at hl
      · have hnl : 0 < (T d).nlink.toInt := by
          by_contra hc
          exact hdet ((h.det_iff hd).mpr hc)
        rw [if_pos ⟨hd, hnl⟩]
        apply countP_congr
        intro e _
        simp [links, hdet]
    · rw [if_neg fun hc => hd hc.1, h.flat d hd, countP_nil]
  omega

end Xv6.Links
