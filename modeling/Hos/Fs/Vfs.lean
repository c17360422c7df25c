import Hos.Fs.Libgen
import Mathlib.Data.List.Induction
import Mathlib.Data.List.Nodup

/-!
# The virtual file system

The mounts are a list of super blocks. `vfs_get_superblock` takes the longest mount path
that the characters of the path start with. A mount path can end inside a name.

`vfs_extend_task_fd_list` clears as many entries of the new table as the old one had.
-/

namespace Hos

namespace CString

/-- The difference at the first place where the strings differ or one of them ends, among the
first `n` characters. The end of a string reads as zero. -/
def strncmp : CString → CString → Nat → Int
  | _, _, 0 => 0
  | x :: s, y :: t, n + 2 => if x = y then strncmp s t (n + 1) else x.toNat - y.toNat
  | s, t, _ + 1 => (s.headD 0).toNat - (t.headD 0).toNat

/-- A canonical absolute path with the given names. -/
structure Canonical (path : CString) (names : List CString) : Prop where
  eq : path = ofParents names
  names : ∀ name ∈ names, name ≠ [] ∧ slash ∉ name ∧ 0 ∉ name

variable {s t : CString} {names names' : List CString}

theorem strncmp_eq_zero_iff (hzero : 0 ∉ t) : strncmp s t t.length = 0 ↔ t <+: s := by
  have hbyte : ∀ {x y : Byte}, (x.toNat : Int) - y.toNat = 0 ↔ y = x := by
    intro x y
    rw [← BitVec.toNat_inj]
    omega
  induction t generalizing s with
  | nil => simp [strncmp]
  | cons y t ih =>
    obtain ⟨hy, ht⟩ := List.ne_and_not_mem_of_not_mem_cons hzero
    cases s with
    | nil =>
      have hpos : y.toNat ≠ 0 := fun h => hy (BitVec.eq_of_toNat_eq h.symm)
      cases t <;> simp [strncmp, hpos]
    | cons x s =>
      cases t with
      | nil => simp [strncmp, hbyte]
      | cons z t =>
        have hcons := @ih s ht
        rw [List.length_cons] at hcons
        rw [List.length_cons, List.length_cons, strncmp, List.cons_prefix_cons]
        split
        case isTrue heq => simpa [heq] using hcons
        case isFalse hne => simp [hbyte, Ne.symm hne]

theorem ofParents_prefix (h : names <+: names') : ofParents names <+: ofParents names' := by
  obtain ⟨rest, rfl⟩ := h
  cases names with
  | nil =>
    cases rest with
    | nil => exact List.prefix_refl _
    | cons name rest => exact ⟨_, rfl⟩
  | cons name names => simp [ofParents, ofNames]

theorem Canonical.ne_nil (h : Canonical s names) : s ≠ [] := by
  rw [h.eq]
  cases names <;> simp [ofParents, ofNames]

theorem Canonical.zero (h : Canonical s names) : 0 ∉ s := by
  have hnames : ∀ name ∈ names, 0 ∉ name := fun name hname => (h.names name hname).2.2
  rw [h.eq, ofParents]
  split
  · decide
  · simpa [ofNames, slash] using hnames

end CString

open CString List

/-- `super_block_t`. -/
structure SuperBlock where
  path : CString
  root : Nat

/-- The longest mount so far and its length. -/
def superblockStep (absolutePath : CString) (last : Nat × Option SuperBlock)
    (superblock : SuperBlock) :
    Nat × Option SuperBlock :=
  let len := superblock.path.length
  if strncmp absolutePath superblock.path len = 0 ∧ last.1 < len
    then (len, some superblock) else last

def vfsGetSuperblock (mounts : List SuperBlock) (absolutePath : CString) : Option SuperBlock :=
  (mounts.foldl (superblockStep absolutePath) (0, none)).2

section

variable {mounts : List SuperBlock} {path : CString}

/-- The scan keeps a longest one of the mount paths that start the path. -/
theorem foldl_superblockStep (hzero : ∀ sb ∈ mounts, 0 ∉ sb.path) :
    ∃ last : Option SuperBlock,
      mounts.foldl (superblockStep path) (0, none) = (last.elim 0 (·.path.length), last) ∧
        (∀ sb ∈ mounts, sb.path <+: path → sb.path.length ≤ last.elim 0 (·.path.length)) ∧
        ∀ sb, last = some sb → sb ∈ mounts ∧ sb.path <+: path := by
  induction mounts using reverseRecOn with
  | nil => exact ⟨none, rfl, by simp, by simp⟩
  | append_singleton mounts sb ih =>
    obtain ⟨last, hrun, hmax, hlast⟩ := ih fun sb' hmem => hzero sb' (mem_append_left _ hmem)
    simp only [foldl_append, hrun, foldl_cons, foldl_nil, superblockStep,
      strncmp_eq_zero_iff (hzero sb (by simp))]
    split
    case isTrue h =>
      refine ⟨some sb, rfl, fun sb' hmem hstring => ?_, fun sb' heq => ?_⟩
      · obtain hmem | rfl := by simpa using hmem
        · exact (hmax sb' hmem hstring).trans h.2.le
        · exact le_rfl
      · cases heq
        exact ⟨by simp, h.1⟩
    case isFalse h =>
      refine ⟨last, rfl, fun sb' hmem hstring => ?_, fun sb' heq => ?_⟩
      · obtain hmem | rfl := by simpa using hmem
        · exact hmax sb' hmem hstring
        · exact Nat.not_lt.mp fun hlt => h ⟨hstring, hlt⟩
      · exact ⟨mem_append_left _ (hlast sb' heq).1, (hlast sb' heq).2⟩

variable {names : SuperBlock → List CString} {target : List CString}

/-- The mount whose names are the longest start of the given ones. -/
def Covers (mounts : List SuperBlock) (names : SuperBlock → List CString) (target : List CString)
    (sb : SuperBlock) : Prop :=
  sb ∈ mounts ∧ names sb <+: target ∧ ∀ sb' ∈ mounts, names sb' <+: target → names sb' <+: names sb

/-- The lookup finds the covering mount, and none exactly when there is none, if and only if
every mount path that ends inside a name of the path is shorter than a mount path that does not. -/
theorem vfsGetSuperblock_covers_iff (hmounts : ∀ sb ∈ mounts, Canonical sb.path (names sb))
    (hdistinct : (mounts.map (·.path)).Nodup) (hpath : Canonical path target) :
    ((∀ sb, vfsGetSuperblock mounts path = some sb ↔ Covers mounts names target sb) ∧
      (vfsGetSuperblock mounts path = none ↔ ∀ sb ∈ mounts, ¬names sb <+: target)) ↔
      ∀ sb ∈ mounts, sb.path <+: path → ¬names sb <+: target →
        ∃ sb' ∈ mounts, names sb' <+: target ∧ sb.path.length < sb'.path.length := by
  obtain ⟨last, hrun, hmax, hlast⟩ := @foldl_superblockStep mounts path fun sb hmem =>
    (hmounts sb hmem).zero
  have hget : vfsGetSuperblock mounts path = last := by rw [vfsGetSuperblock, hrun]
  have hinj := inj_on_of_nodup_map hdistinct
  have hstart : ∀ sb ∈ mounts, names sb <+: target → sb.path <+: path := by
    intro sb hmem hstring
    rw [(hmounts sb hmem).eq, hpath.eq]
    exact ofParents_prefix hstring
  rw [hget]
  constructor
  · rintro ⟨hcovers, -⟩ sb hmem hstring hnames
    have hle := hmax sb hmem hstring
    cases last with
    | none =>
      exact absurd (length_eq_zero_iff.mp (Nat.le_zero.mp hle)) (hmounts sb hmem).ne_nil
    | some b =>
      obtain ⟨hb, hbnames, -⟩ := (hcovers b).mp rfl
      refine ⟨b, hb, hbnames, Nat.lt_of_le_of_ne hle fun heq => hnames ?_⟩
      -- two starts of one length are equal
      have hsame := (prefix_of_prefix_length_le hstring (hlast b rfl).2 hle).eq_of_length heq
      rwa [hinj hmem hb hsame]
  · intro hinside
    have hnames : ∀ b, last = some b → Covers mounts names target b := by
      rintro b rfl
      obtain ⟨hb, hstring⟩ := hlast b rfl
      have hbnames : names b <+: target := by
        by_contra hnot
        obtain ⟨sb, hmem, hsb, hlt⟩ := hinside b hb hstring hnot
        exact absurd (hmax sb hmem (hstart sb hmem hsb)) (Nat.not_le.mpr hlt)
      refine ⟨hb, hbnames, fun sb hmem hsb => ?_⟩
      obtain hle | hge := prefix_or_prefix_of_prefix hsb hbnames
      · exact hle
      · have hpaths := ofParents_prefix hge
        rw [← (hmounts b hb).eq, ← (hmounts sb hmem).eq] at hpaths
        exact hinj hb hmem (hpaths.eq_of_length_le (hmax sb hmem (hstart sb hmem hsb))) ▸
          prefix_refl _
    have hnone : last = none ↔ ∀ sb ∈ mounts, ¬names sb <+: target := by
      constructor
      · rintro rfl sb hmem hsb
        have hle := hmax sb hmem (hstart sb hmem hsb)
        exact (hmounts sb hmem).ne_nil (length_eq_zero_iff.mp (Nat.le_zero.mp hle))
      · intro hno
        cases last with
        | none => rfl
        | some b => exact absurd (hnames b rfl).2.1 (hno b (hnames b rfl).1)
    refine ⟨fun sb => ⟨hnames sb, fun hsb => ?_⟩, hnone⟩
    cases last with
    | none => exact absurd hsb.2.1 (hnone.mp rfl sb hsb.1)
    | some b =>
      obtain ⟨hb, hbnames, hbmax⟩ := hnames b rfl
      have heq := (hsb.2.2 b hb hbnames).eq_of_length_le (hbmax sb hsb.1 hsb.2.1).length_le
      have hpaths : b.path = sb.path := by rw [(hmounts b hb).eq, heq, ← (hmounts sb hsb.1).eq]
      rw [hinj hb hsb.1 hpaths]

end

/-- A file of `/proc` is looked up in the mount of `/proc`. -/
theorem vfsGetSuperblock_covers_proc : vfsGetSuperblock [⟨cstr "/proc", 2⟩, ⟨cstr "/", 1⟩]
    (cstr "/proc/uptime") = some ⟨cstr "/proc", 2⟩ := by
  have hnames : ∀ sb ∈ [(⟨cstr "/proc", 2⟩ : SuperBlock), ⟨cstr "/", 1⟩],
      Canonical sb.path (if sb.root = 2 then [cstr "proc"] else []) :=
    fun sb hmem => ⟨by revert sb; decide, by revert sb; decide⟩
  have hpath : Canonical (cstr "/proc/uptime") [cstr "proc", cstr "uptime"] :=
    ⟨by decide, by decide⟩
  have hcovers := (vfsGetSuperblock_covers_iff hnames (by decide) hpath).mpr (by decide)
  exact (hcovers.1 _).mpr ⟨by simp, by decide, by decide⟩

/-- `/procfoo` is looked up in the mount of `/proc`, although its names start only with those of
`/`. -/
theorem procfoo_found_in_proc :
    vfsGetSuperblock [⟨cstr "/proc", 2⟩, ⟨cstr "/", 1⟩] (cstr "/procfoo") = some ⟨cstr "/proc", 2⟩ ∧
      Canonical (cstr "/procfoo") [cstr "procfoo"] ∧ ¬[cstr "proc"] <+: [cstr "procfoo"] :=
  ⟨rfl, ⟨by decide, by decide⟩, by decide⟩

/-- `vfs_file_descriptor_t`. -/
structure FileDescriptor where
  fileStruct : Nat
  flagsMask : Nat

/-- The descriptors of a task. -/
structure DescriptorTable where
  maxFd : Nat
  fdList : Option (List FileDescriptor)

/-- `MAX_OPEN_FD`. -/
def maxOpenFd : Nat := 16

/-- `memcpy` of entries. A copy past the end of either block is not defined. -/
def copyEntries (src dst : List FileDescriptor) (n : Nat) : Option (List FileDescriptor) :=
  if n ≤ src.length ∧ n ≤ dst.length then some (src.take n ++ dst.drop n) else none

/-- The new value of `max_fd`. -/
def DescriptorTable.newMaxFd (task : DescriptorTable) : Nat :=
  if task.fdList.isSome then task.maxFd * 2 + 1 else maxOpenFd

/-- `vfs_extend_task_fd_list`, with the entries that are in the memory `kmalloc` returns. -/
def vfsExtendTaskFdList (recycled : Option (Nat → FileDescriptor)) (task : DescriptorTable) :
    Option (DescriptorTable × Bool) :=
  match recycled with
  | none => some (task, false)
  | some content => do
    let block := (List.range (u32 (task.newMaxFd * 8) / 8)).map content
    let block ← copyEntries (List.replicate task.maxFd ⟨0, 0⟩) block task.maxFd
    let block ← task.fdList.elim (some block) (copyEntries · block task.maxFd)
    some (⟨task.newMaxFd, some block⟩, true)

/-- The loops of `vfs_dup_task` and `vfs_destroy_task`, which visit the files. -/
def visitFiles {σ : Type} (visit : σ → Nat → Option σ) (fds : List FileDescriptor)
    (s : σ) : Option σ :=
  fds.foldlM (fun s fd => if fd.fileStruct = 0 then some s else visit s fd.fileStruct) s

/-- The old entries are at their places, and the entries behind them are empty. -/
def Extended (task task' : DescriptorTable) : Prop :=
  ∃ fds, task'.fdList = some (task.fdList.getD [] ++ fds) ∧
    task'.maxFd = (task.fdList.getD [] ++ fds).length ∧ ∀ fd ∈ fds, fd.fileStruct = 0

section

variable {task task' : DescriptorTable} {recycled : Option (Nat → FileDescriptor)}

/-- Both loops visit the files they would visit with the old table. -/
theorem Extended.visitFiles (h : Extended task task') {σ : Type}
    (visit : σ → Nat → Option σ) (s : σ) :
    visitFiles visit (task'.fdList.getD []) s = Hos.visitFiles visit (task.fdList.getD []) s := by
  obtain ⟨fds, hlist, -, hempty⟩ := h
  have hskip : ∀ s, Hos.visitFiles visit fds s = some s := by
    clear hlist
    intro s
    induction fds with
    | nil => rfl
    | cons fd fds ih =>
      obtain ⟨hfd, hfds⟩ := forall_mem_cons.mp hempty
      rw [Hos.visitFiles, foldlM_cons, if_pos hfd]
      exact ih hfds
  rw [hlist, Option.getD_some, Hos.visitFiles, foldlM_append]
  exact (congrArg _ (funext hskip)).trans (bind_pure _)

variable (htable : ∀ fds, task.fdList = some fds → fds.length = task.maxFd)

include htable

theorem vfsExtendTaskFdList_some {content : Nat → FileDescriptor} :
    vfsExtendTaskFdList (some content) task = if task.maxFd ≤ u32 (task.newMaxFd * 8) / 8 then
        some (⟨task.newMaxFd, some (task.fdList.getD (replicate task.maxFd ⟨0, 0⟩) ++
          (range' task.maxFd (u32 (task.newMaxFd * 8) / 8 - task.maxFd)).map content)⟩, true)
      else none := by
  have hdrop : ∀ n, ((range n).map content).drop task.maxFd =
      (range' task.maxFd (n - task.maxFd)).map content := by
    intro n
    rw [← map_drop, range_eq_range', drop_range']
    simp
  rw [vfsExtendTaskFdList]
  split
  case isTrue hle =>
    cases hlist : task.fdList with
    | none => simp [copyEntries, hle, hdrop]
    | some old =>
      have hlen := htable old hlist
      simp [copyEntries, hle, hdrop, hlen, take_of_length_le]
  case isFalse hle => simp [copyEntries, hle]

theorem extended_iff {m : Nat} {fds : List FileDescriptor} :
    Extended task ⟨m, some (task.fdList.getD (replicate task.maxFd ⟨0, 0⟩) ++ fds)⟩ ↔
      m = task.maxFd + fds.length ∧ ∀ fd ∈ fds, fd.fileStruct = 0 := by
  cases hlist : task.fdList with
  | none => simp +contextual [Extended, hlist, or_imp]
  | some old => simp [Extended, hlist, htable old hlist]

/-- The table grows with empty entries exactly when the memory from `kmalloc` has empty entries
behind the old ones and the size of the table is a 32-bit number. -/
theorem vfsExtendTaskFdList_extended_iff :
    (∃ task' ok, vfsExtendTaskFdList recycled task = some (task', ok) ∧
      (ok = true → Extended task task' ∧ ∀ (σ : Type) (visit : σ → Nat → Option σ) s,
        visitFiles visit (task'.fdList.getD []) s = visitFiles visit (task.fdList.getD []) s)) ↔
      ∀ content, recycled = some content → task.newMaxFd * 8 < 2 ^ 32 ∧ task.maxFd ≤ task.newMaxFd ∧
        ∀ i, task.maxFd ≤ i → i < task.newMaxFd → (content i).fileStruct = 0 := by
  cases recycled with
  | none => simp [vfsExtendTaskFdList]
  | some content =>
    have hblock : task.newMaxFd * 8 < 2 ^ 32 ↔ u32 (task.newMaxFd * 8) / 8 = task.newMaxFd := by
      rw [u32]
      omega
    rw [vfsExtendTaskFdList_some htable]
    constructor
    · rintro ⟨task', ok, hrun, hok⟩ content' ⟨⟩
      split at hrun
      case isTrue hle =>
        cases hrun
        obtain ⟨hmax, hempty⟩ := (extended_iff htable).mp (hok rfl).1
        rw [length_map, length_range', Nat.add_sub_cancel' hle] at hmax
        refine ⟨hblock.mpr hmax.symm, hmax ▸ hle,
          fun i hlo hhi => hempty _ (mem_map_of_mem ?_)⟩
        rw [mem_range'_1]
        omega
      case isFalse => cases hrun
    · intro h
      obtain ⟨hfits, hle, hnull⟩ := h content rfl
      rw [hblock.mp hfits, if_pos hle]
      have hempty : ∀ fd ∈ (range' task.maxFd (task.newMaxFd - task.maxFd)).map content,
          fd.fileStruct = 0 := by
        simp only [forall_mem_map, mem_range'_1]
        exact fun i hi => hnull i hi.1 (by omega)
      have hextended := (extended_iff htable).mpr ⟨(by simp [hle] : task.newMaxFd = _), hempty⟩
      exact ⟨_, _, rfl, fun _ => ⟨hextended, fun _ => hextended.visitFiles⟩⟩

end

/-- A table of one entry grows to three in cleared memory. -/
theorem vfsExtendTaskFdList_extended_cleared : ∃ task' ok,
    vfsExtendTaskFdList (some fun _ => ⟨0, 0⟩) ⟨1, some [⟨0xD0000040, 2⟩]⟩ = some (task', ok) ∧
      (ok = true → Extended ⟨1, some [⟨0xD0000040, 2⟩]⟩ task') := by
  have htable : ∀ fds, some [(⟨0xD0000040, 2⟩ : FileDescriptor)] = some fds → fds.length = 1 := by
    simp
  have hempty : ∀ content, some (fun _ : Nat => (⟨0, 0⟩ : FileDescriptor)) = some content →
      3 * 8 < 2 ^ 32 ∧ 1 ≤ 3 ∧ ∀ i, 1 ≤ i → i < 3 → (content i).fileStruct = 0 := by
    simp
  obtain ⟨task', ok, hrun, hextended⟩ := (@vfsExtendTaskFdList_extended_iff ⟨1, _⟩ _ htable).mpr
    hempty
  exact ⟨task', ok, hrun, fun hok => (hextended hok).1⟩

/-- The first table of a task, in memory that was used before: its sixteen entries are what the
memory held, and `vfs_dup_task` follows the first of them. -/
theorem first_table_not_cleared : ∃ task',
    vfsExtendTaskFdList (some fun _ => ⟨0x41414141, 0⟩) ⟨0, none⟩ = some (task', true) ∧
      (task'.fdList.getD []).map (·.fileStruct) = replicate 16 0x41414141 ∧
      visitFiles (fun visited file => some (file :: visited)) (task'.fdList.getD []) [] =
        some (replicate 16 0x41414141) :=
  ⟨_, rfl, by decide, by decide⟩

end Hos
