import Mathlib.Data.List.Nodup
import Mathlib.Data.List.Perm.Subperm
import Hos.Fs.Procfs.Basic
import Hos.Lib.Run

/-!
# The names and inodes of a procfs store

Every call keeps the files, adds one at the end or removes one, and no call changes
the name, the inode or the flags of a file. `procfs_mkdir` and `procfs_open` look
for the parent of a new file. The functions for entries do not: the path that they
make has the last component of the parent's name only.
-/

namespace Hos

open Option List
open List (find?_some length_map map_append map_cons map_singleton mem_map)

namespace Procfs

/-- What a handle does not change. -/
def File.key (file : File) : Nat × Int × Nat × CString :=
    (file.magic, file.inode, file.flags, file.name)

/-- The parent of the path is the root or a directory of the store. -/
def HasParent (fs : Procfs) (path : CString) : Prop :=
  path.parent = cstr "/" ∨ ∃ file ∈ fs.files, file.name = path.parent ∧ file.isDir = true

instance {fs : Procfs} {path : CString} : Decidable (fs.HasParent path) :=
  inferInstanceAs (Decidable (_ ∨ ∃ file ∈ fs.files, _ ∧ _))

/-- The state of the store that its callers rely on. -/
structure WellFormed (fs : Procfs) : Prop where
  names_nodup : (fs.files.map File.name).Nodup
  inodes_nodup : (fs.files.map File.inode).Nodup
  inode_pos : ∀ file ∈ fs.files, 0 < file.inode
  hasParent : ∀ file ∈ fs.files, fs.HasParent file.name
  count : fs.nfiles = fs.files.length

/-- A well-formed store whose names start at the root and whose files are valid. -/
structure Sound (fs : Procfs) : Prop extends WellFormed fs where
  check : ∀ file ∈ fs.files, file.check = true
  inode_lt : ∀ file ∈ fs.files, file.inode < maxFiles
  kind : ∀ file ∈ fs.files, file.flags = dtDir ∨ file.flags = dtReg
  rooted : ∀ file ∈ fs.files, file.name.Rooted
  dirname : ∀ file ∈ fs.files, file.name.dirname = file.name.parent

/-- A path at which the store has room for a new file. -/
structure Vacant (fs : Procfs) (path : CString) : Prop where
  room : fs.files.length < maxFiles - 1
  absent : fs.findEntryPath path = none
  rooted : path.Rooted
  dirname : path.dirname = path.parent
  hasParent : fs.HasParent path

/-- A file that can be added to the store. -/
structure Addable (fs : Procfs) (file : File) : Prop extends Vacant fs file.name where
  check : file.check = true
  inode : file.inode = fs.getFreeInode
  kind : file.flags = dtDir ∨ file.flags = dtReg

/-- A file that can be removed from the store. -/
structure Removable (fs : Procfs) (file : File) : Prop where
  found : fs.findEntryPath file.name = some file
  empty : file.isDir = true → fs.checkIfEmpty file.name = false

/-- What one call does to the store. -/
inductive Change (fs fs' : Procfs) : Prop
  | keep (hcount : fs'.nfiles = fs.nfiles) (hkeys : fs'.files.map File.key = fs.files.map File.key)
  | add (file : File) (hfile : Addable fs file) (hcount : fs'.nfiles = u32 (fs.nfiles + 1))
      (hkeys : fs'.files.map File.key = fs.files.map File.key ++ [file.key])
  | remove (file : File) (hfile : Removable fs file) (heq : fs' = fs.destroyFile file)

section

variable {fs : Procfs} {file : File} {path : CString} {inode : Int}

theorem findEntryPath_spec (h : fs.findEntryPath path = some file) : file ∈ fs.files ∧
    file.name = path := by
  refine ⟨mem_of_find?_eq_some h, ?_⟩
  have hfound := find?_some h
  simp only [Bool.and_eq_true, beq_iff_eq] at hfound
  exact hfound.2

/-- In a sound store a failed search means that no file has the name. -/
theorem Sound.ne_of_findEntryPath (h : Sound fs) (hnone : fs.findEntryPath path = none)
    (hmem : file ∈ fs.files) : file.name ≠ path := by
  have hfile := find?_eq_none.mp hnone file hmem
  simpa [h.check file hmem] using hfile

theorem Sound.ne_of_findEntryInode (h : Sound fs) (hnone : fs.findEntryInode inode = none)
    (hmem : file ∈ fs.files) : file.inode ≠ inode := by
  have hfile := find?_eq_none.mp hnone file hmem
  simpa [h.check file hmem] using hfile

theorem Sound.length_lt (h : Sound fs) : fs.files.length < maxFiles := by
  have hrange : fs.files.map File.inode ⊆ (range' 1 (maxFiles - 1)).map Int.ofNat := by
    intro inode hinode
    obtain ⟨file, hmem, rfl⟩ := mem_map.mp hinode
    have hpos := h.inode_pos file hmem
    have hlt := h.inode_lt file hmem
    refine mem_map.mpr ⟨file.inode.toNat, mem_range'_1.mpr ?_, Int.toNat_of_nonneg (by omega)⟩
    omega
  have hlength := (subperm_of_subset h.inodes_nodup hrange).length_le
  rw [length_map, length_map, length_range'] at hlength
  exact Nat.lt_of_le_of_lt hlength (by decide)

/-- A free number is found as long as there are fewer files than numbers. -/
theorem Sound.getFreeInode_spec (h : Sound fs) (hroom : fs.files.length < maxFiles - 1) :
    0 < fs.getFreeInode ∧ fs.getFreeInode < maxFiles ∧ ∀ file ∈ fs.files,
      file.inode ≠ fs.getFreeInode := by
  rw [getFreeInode]
  cases hfind : (range' 1 (maxFiles - 1)).find? fun inode : Nat =>
    (fs.findEntryInode inode).isNone with
  | some inode =>
    have hrange := mem_range'_1.mp (mem_of_find?_eq_some hfind)
    have hfree := find?_some hfind
    have hnone : fs.findEntryInode inode = none := isNone_iff_eq_none.mp hfree
    exact ⟨Int.natCast_pos.mpr (by omega), Int.ofNat_lt.mpr (by omega),
      fun file hmem => h.ne_of_findEntryInode hnone hmem⟩
  | none =>
    -- all the numbers are taken, by as many files
    have htaken : (range' 1 (maxFiles - 1)).map Int.ofNat ⊆ fs.files.map File.inode := by
      intro inode hinode
      obtain ⟨n, hn, rfl⟩ := mem_map.mp hinode
      have hsome := find?_eq_none.mp hfind n hn
      rw [isNone_iff_eq_none] at hsome
      obtain ⟨file, hfile⟩ := ne_none_iff_exists'.mp hsome
      have hname := find?_some hfile
      simp only [Bool.and_eq_true, beq_iff_eq] at hname
      exact mem_map.mpr ⟨file, mem_of_find?_eq_some hfile, hname.2⟩
    have hnodup : ((range' 1 (maxFiles - 1)).map Int.ofNat).Nodup :=
      List.Nodup.map (fun a b hab => Int.ofNat.inj hab) nodup_range'
    have hlength := (subperm_of_subset hnodup htaken).length_le
    rw [length_map, length_map, length_range'] at hlength
    omega

end

section

variable {fs fs' : Procfs} {file file' : File} {path : CString}

theorem File.key_inj (h : file.key = file'.key) :
    file.magic = file'.magic ∧ file.inode = file'.inode ∧ file.flags = file'.flags ∧
      file.name = file'.name := by
  simpa [File.key] using h

section

variable (hkeys : fs'.files.map File.key = fs.files.map File.key)
include hkeys

/-- What depends on the keys only carries over to a store with the same keys. -/
theorem forall_of_keys {P : File → Prop}
    (hP : ∀ file file', file.key = file'.key → P file → P file')
    (h : ∀ file ∈ fs.files, P file) : ∀ file' ∈ fs'.files, P file' := by
  intro file' hmem
  have hkey := mem_map_of_mem (f := File.key) hmem
  rw [hkeys] at hkey
  obtain ⟨file, hfile, heq⟩ := mem_map.mp hkey
  exact hP file file' heq (h file hfile)

theorem map_of_keys {α : Type} (f : Nat × Int × Nat × CString → α) :
    fs'.files.map (f ∘ File.key) = fs.files.map (f ∘ File.key) := by
  rw [← List.map_map, ← List.map_map, hkeys]

theorem HasParent.congr (h : fs.HasParent path) : fs'.HasParent path := by
  rcases h with hroot | ⟨file, hmem, hname, hdir⟩
  · exact .inl hroot
  · have hkey := mem_map_of_mem (f := File.key) hmem
    rw [← hkeys] at hkey
    obtain ⟨file', hmem', heq⟩ := mem_map.mp hkey
    obtain ⟨-, -, hflags, hname'⟩ := File.key_inj heq
    refine .inr ⟨file', hmem', hname'.trans hname, ?_⟩
    rwa [File.isDir, hflags]

end

theorem Sound.congr (h : Sound fs) (hcount : fs'.nfiles = fs.nfiles)
    (hkeys : fs'.files.map File.key = fs.files.map File.key) : Sound fs' where
  names_nodup := (map_of_keys hkeys fun key => key.2.2.2).symm ▸ h.names_nodup
  inodes_nodup := (map_of_keys hkeys fun key => key.2.1).symm ▸ h.inodes_nodup
  inode_pos := forall_of_keys hkeys (fun _ _ heq => (File.key_inj heq).2.1 ▸ id) h.inode_pos
  hasParent := forall_of_keys hkeys (fun _ _ heq hparent => (File.key_inj heq).2.2.2 ▸ hparent)
    fun file hmem => (h.hasParent file hmem).congr hkeys
  count := by
    have hlength := congrArg length hkeys
    rw [length_map, length_map] at hlength
    rw [hcount, hlength, h.count]
  check := forall_of_keys hkeys (fun _ _ heq hcheck => by rwa [File.check, ← (File.key_inj heq).1])
    h.check
  inode_lt := forall_of_keys hkeys (fun _ _ heq => (File.key_inj heq).2.1 ▸ id) h.inode_lt
  kind := forall_of_keys hkeys (fun _ _ heq => (File.key_inj heq).2.2.1 ▸ id) h.kind
  rooted := forall_of_keys hkeys (fun _ _ heq => (File.key_inj heq).2.2.2 ▸ id) h.rooted
  dirname := forall_of_keys hkeys (fun _ _ heq => (File.key_inj heq).2.2.2 ▸ id) h.dirname

theorem HasParent.mono (h : fs.HasParent path) (hsub : ∀ file ∈ fs.files, file ∈ fs'.files) :
    fs'.HasParent path :=
  h.imp_right fun ⟨file, hmem, hfile⟩ => ⟨file, hsub file hmem, hfile⟩

theorem Sound.add (h : Sound fs) (hfile : Addable fs file) :
    Sound ⟨u32 (fs.nfiles + 1), fs.files ++ [file]⟩ := by
  obtain ⟨hpos, hlt, hfresh⟩ := h.getFreeInode_spec hfile.room
  have hall : ∀ {P : File → Prop}, (∀ f ∈ fs.files, P f) → P file → ∀ f ∈ fs.files ++ [file], P f :=
    fun hold hnew => forall_mem_append.mpr ⟨hold, forall_mem_singleton.mpr hnew⟩
  have hsub : ∀ f ∈ fs.files, f ∈ fs.files ++ [file] := fun f hf => mem_append_left _ hf
  have hroom := hfile.room
  have hmax : maxFiles = 1024 := rfl
  refine ⟨⟨?_, ?_, hall h.inode_pos (hfile.inode ▸ hpos), ?_, ?_⟩, hall h.check hfile.check,
    hall h.inode_lt (hfile.inode ▸ hlt), hall h.kind hfile.kind, hall h.rooted hfile.rooted,
    hall h.dirname hfile.dirname⟩
  · rw [map_append, map_singleton, ← concat_eq_append]
    refine List.Nodup.concat (fun hmem => ?_) h.names_nodup
    obtain ⟨f, hf, hname⟩ := mem_map.mp hmem
    exact h.ne_of_findEntryPath hfile.absent hf hname
  · rw [map_append, map_singleton, ← concat_eq_append]
    refine List.Nodup.concat (fun hmem => ?_) h.inodes_nodup
    obtain ⟨f, hf, hinode⟩ := mem_map.mp hmem
    exact hfresh f hf (hinode.trans hfile.inode)
  · exact hall (fun f hf => (h.hasParent f hf).mono hsub) (hfile.hasParent.mono hsub)
  · rw [length_append, length_singleton, h.count, u32_of_lt (by omega)]

/-- Removing a file that nobody has as its parent. -/
theorem Sound.destroyFile (h : Sound fs) (hfile : Removable fs file) :
    Sound (fs.destroyFile file) := by
  obtain ⟨hmem, -⟩ := findEntryPath_spec hfile.found
  have hsub : ∀ f ∈ fs.files.erase file, f ∈ fs.files := fun f hf => mem_of_mem_erase hf
  have hnodup : fs.files.Nodup := h.names_nodup.of_map
  have hlength := length_erase_of_mem hmem
  have hpos := length_pos_of_mem hmem
  refine ⟨⟨?_, ?_, fun f hf => h.inode_pos f (hsub f hf), fun f hf => ?_, ?_⟩,
    fun f hf => h.check f (hsub f hf),
    fun f hf => h.inode_lt f (hsub f hf), fun f hf => h.kind f (hsub f hf),
      fun f hf => h.rooted f (hsub f hf), fun f hf => h.dirname f (hsub f hf)⟩
  · exact h.names_nodup.sublist (erase_sublist.map _)
  · exact h.inodes_nodup.sublist (erase_sublist.map _)
  · obtain hroot | ⟨dir, hdir, hname, hisDir⟩ := h.hasParent f (hsub f hf)
    · exact .inl hroot
    · refine .inr ⟨dir, (List.Nodup.mem_erase_iff hnodup).mpr ⟨?_, hdir⟩, hname, hisDir⟩
      -- a file in the directory would have been seen
      rintro rfl
      have hempty := any_eq_false.mp (hfile.empty hisDir) f (hsub f hf)
      have hne : f.name ≠ dir.name := fun heq =>
        ((List.Nodup.mem_erase_iff hnodup).mp hf).1
          (inj_on_of_nodup_map h.names_nodup (hsub f hf) hmem heq)
      have hsame : f.name = f.name.parent := by
        simpa [h.check f (hsub f hf), h.dirname f (hsub f hf), hname] using hempty
      exact hne (hsame.trans hname.symm)
  · have hlt := h.length_lt
    have hmax : maxFiles = 1024 := rfl
    rw [Procfs.destroyFile, hlength, h.count, sub32_of_le (by omega) hpos]

theorem Sound.change (h : Sound fs) (hchange : Change fs fs') : Sound fs' := by
  cases hchange with
  | keep hcount hkeys => exact h.congr hcount hkeys
  | add file hfile hcount hkeys =>
    refine (h.add hfile).congr hcount ?_
    rw [hkeys, map_append, map_singleton]
  | remove file hfile heq => exact heq ▸ h.destroyFile hfile

end

/-! ## The calls -/

inductive Call
  | mkdir (env : Env) (path : CString)
  | rmdir (path : CString)
  | procfsOpen (env : Env) (path : CString) (flags : Nat)
  | procfsClose (handle : Nat)
  | procMkdir (env : Env) (name : CString) (parent : Option CString)
  | procRmdir (name : CString) (parent : Option CString)
  | procCreateEntry (env : Env) (name : CString) (parent : Option CString)
  | procDestroyEntry (name : CString) (parent : Option CString)

namespace Call

def exec : Call → Procfs → Option Procfs
  | mkdir env path, fs => (fs.mkdir env path).map Prod.fst
  | rmdir path, fs => some (fs.rmdir path).1
  | procfsOpen env path flags, fs => (fs.procfsOpen env path flags).map Prod.fst
  | procfsClose handle, fs => some (fs.procfsClose handle)
  | procMkdir env name parent, fs => (fs.procMkdir env name parent).map Prod.fst
  | procRmdir name parent, fs => (fs.procRmdir name parent).map Prod.fst
  | procCreateEntry env name parent, fs => (fs.procCreateEntry env name parent).map Prod.fst
  | procDestroyEntry name parent, fs => (fs.procDestroyEntry name parent).map Prod.fst

/-- A path for a new entry that is below a directory of the store. -/
def EntryPlaced (fs : Procfs) (name : CString) (parent : Option CString) : Prop :=
  ∀ path ∈ entryPath name parent, path.getLast? ≠ some CString.slash ∧ fs.HasParent path

instance {fs : Procfs} {name : CString} {parent : Option CString} :
    Decidable (EntryPlaced fs name parent) :=
  inferInstanceAs (Decidable (∀ path ∈ entryPath name parent, _ ∧ _))

/-- There is a number left for a new file, a path from the virtual file system starts at
the root, and a new entry is below a directory. -/
def Admitted : Call → Procfs → Prop
  | mkdir _ path, fs => fs.files.length < maxFiles - 1 ∧ path.Rooted
  | rmdir _, _ => True
  | procfsOpen _ path _, fs => fs.files.length < maxFiles - 1 ∧ path.Rooted
  | procfsClose _, _ => True
  | procMkdir _ name parent, fs => fs.files.length < maxFiles - 1 ∧ EntryPlaced fs name parent
  | procRmdir _ _, _ => True
  | procCreateEntry _ name parent, fs => fs.files.length < maxFiles - 1 ∧ EntryPlaced fs name parent
  | procDestroyEntry _ _, _ => True

end Call

section

variable {fs fs' : Procfs} {file : File} {path name : CString} {parent : Option CString} {env : Env}
    {flags : Nat} {r : Option File}

theorem Change.refl (fs : Procfs) : Change fs fs := .keep rfl rfl

theorem map_replace_key {file' : File} {files : List File} (hkey : file'.key = file.key) :
    (files.replace file file').map File.key = files.map File.key := by
  induction files with
  | nil => rfl
  | cons f files ih =>
    rw [replace_cons]
    by_cases heq : file = f
    · rw [beq_iff_eq.mpr heq, map_cons, map_cons, hkey, heq]
    · rw [beq_eq_false_iff_ne.mpr heq, map_cons, map_cons, ih]

theorem attach_keys {handle : Handle} {atime : Nat} :
    (fs.attach file handle atime).files.map File.key = fs.files.map File.key :=
  map_replace_key rfl

section

variable (hvacant : Vacant fs path) (hflags : flags = dtDir ∨ flags = dtReg)
  (h : fs.createFile env path flags = some (fs', r))
include hvacant hflags h

/-- A new file, unless there is no memory. -/
theorem createFile_cases :
    fs' = fs ∧ r = none ∨ ∃ file, Addable fs file ∧ r = some file ∧
      fs' = ⟨u32 (fs.nfiles + 1), fs.files ++ [file]⟩ := by
  rw [createFile] at h
  by_cases hnull : env.file = 0
  · rw [if_pos hnull] at h
    cases h
    simp
  · rw [if_neg hnull] at h
    by_cases hlong : nameMax ≤ path.length
    · rw [if_pos hlong] at h
      cases h
    · rw [if_neg hlong] at h
      cases h
      exact .inr ⟨_, ⟨hvacant, rfl, rfl, hflags⟩, rfl, rfl⟩

theorem createFile_change : Change fs fs' := by
  obtain ⟨rfl, -⟩ | ⟨file, hfile, -, rfl⟩ := createFile_cases hvacant hflags h
  · exact .refl fs'
  · exact .add file hfile rfl (by rw [map_append, map_singleton])

end

/-- The check of the parent leaves no path from the root without one. -/
theorem Sound.vacant_of_checkParent (h : Sound fs) (hroom : fs.files.length < maxFiles - 1)
    (hrooted : path.Rooted) (habsent : fs.findEntryPath path = none)
    (hparent : fs.checkParent path = .ok ()) :
    Vacant fs path := by
  rw [checkParent] at hparent
  by_cases hcond : path.dirname ≠ cstr "." ∧ path.dirname ≠ cstr "/"
  · rw [if_pos hcond] at hparent
    cases hfind : fs.findEntryPath path.dirname with
    | none =>
      rw [hfind] at hparent
      cases hparent
    | some dir =>
      rw [hfind] at hparent
      obtain ⟨hmem, hname⟩ := findEntryPath_spec hfind
      have hdirname : path.dirname = path.parent :=
        hrooted.dirname_eq.resolve_right fun hempty => by
        have hroot := h.rooted dir hmem
        rw [hname, hempty.1] at hroot
        cases hroot
      have hisDir : dir.isDir = true := by
        by_contra hfile
        cases (if_neg hfile).symm.trans hparent
      exact ⟨hroom, habsent, hrooted, hdirname, .inr ⟨dir, hmem, hname.trans hdirname, hisDir⟩⟩
  · have hdot : path.dirname = cstr "." ∨ path.dirname = cstr "/" := by
      by_contra hne
      exact hcond (not_or.mp hne)
    have hdirname : path.dirname = path.parent := hrooted.dirname_eq.resolve_right fun hempty => by
      rw [hempty.1] at hdot
      exact absurd hdot (by decide)
    refine ⟨hroom, habsent, hrooted, hdirname, .inl (hdirname ▸ hdot.resolve_left fun heq => ?_)⟩
    have hroot := hrooted.parent
    rw [← hdirname, heq] at hroot
    exact absurd hroot (by decide)

/-- A path for a new entry that is not taken. -/
theorem vacant_of_entryPlaced (hroom : fs.files.length < maxFiles - 1)
    (hpath : entryPath name parent = some path)
    (hplaced : Call.EntryPlaced fs name parent) (habsent : fs.findEntryPath path = none) :
    Vacant fs path := by
  obtain ⟨hlast, hparent⟩ := hplaced path hpath
  have hrooted : path.Rooted := by
    obtain ⟨-, heq⟩ := ite_none_right_eq_some.mp hpath
    cases heq
    rfl
  exact ⟨hroom, habsent, hrooted, hrooted.dirname_eq.resolve_right fun hslash => hlast hslash.2,
    hparent⟩

/-- Only an empty directory goes. -/
theorem removeDir_change (hfind : fs.findEntryPath path = some file)
    (hempty : ¬fs.checkIfEmpty file.name = true) :
    Change fs (fs.destroyFile file) :=
  .remove file ⟨(findEntryPath_spec hfind).2.symm ▸ hfind,
    fun _ => Bool.eq_false_iff.mpr hempty⟩ rfl

theorem mkdir_change (h : Sound fs) (hroom : fs.files.length < maxFiles - 1)
    (hrooted : path.Rooted) {ret : Int}
    (hrun : fs.mkdir env path = some (fs', ret)) : Change fs fs' := by
  rw [mkdir] at hrun
  by_cases hdot : path = cstr "." ∨ path = cstr ".."
  · rw [if_pos hdot] at hrun
    exact (Prod.mk.inj (some.inj hrun)).1 ▸ .refl fs
  rw [if_neg hdot] at hrun
  cases hfind : fs.findEntryPath path with
  | some file =>
    rw [hfind, isSome_some, if_pos rfl] at hrun
    exact (Prod.mk.inj (some.inj hrun)).1 ▸ .refl fs
  | none =>
    rw [hfind, isSome_none, if_neg Bool.false_ne_true] at hrun
    cases hparent : fs.checkParent path with
    | error e =>
      rw [hparent] at hrun
      exact (Prod.mk.inj (some.inj hrun)).1 ▸ .refl fs
    | ok _ =>
      rw [hparent] at hrun
      obtain ⟨⟨fs₁, r⟩, hcreate, heq⟩ := map_eq_some_iff.mp hrun
      cases heq
      exact createFile_change (h.vacant_of_checkParent hroom hrooted hfind hparent)
        (.inl rfl) hcreate

theorem rmdir_change : Change fs (fs.rmdir path).1 := by
  rw [rmdir]
  cases hfind : fs.findEntryPath path with
  | none => split_ifs <;> exact .refl fs
  | some file =>
    dsimp only
    split_ifs with hdot hdir hopen hempty
    · exact .refl fs
    · exact .refl fs
    · exact .refl fs
    · exact .refl fs
    · exact removeDir_change hfind hempty

theorem openFile_change : Change fs (fs.openFile env file).1 := by
  rw [openFile]
  cases createFileStruct env file with
  | none => exact .refl fs
  | some handle => exact .keep rfl attach_keys

theorem openExisting_change : Change fs (fs.openExisting env file flags).1 := by
  rw [openExisting]
  split_ifs
  · exact .refl fs
  · exact .refl fs
  · exact .refl fs
  · exact openFile_change
  · exact .refl fs
  · exact openFile_change

theorem procfsOpen_change (h : Sound fs) (hroom : fs.files.length < maxFiles - 1)
    (hrooted : path.Rooted)
    {ret : Except FsError Handle} (hrun : fs.procfsOpen env path flags = some (fs', ret)) :
    Change fs fs' := by
  rw [procfsOpen] at hrun
  cases hparent : fs.checkParent path with
  | error e =>
    rw [hparent] at hrun
    exact (Prod.mk.inj (some.inj hrun)).1 ▸ .refl fs
  | ok _ =>
    rw [hparent] at hrun
    cases hfind : fs.findEntryPath path with
    | some file =>
      rw [hfind] at hrun
      obtain rfl : (fs.openExisting env file flags).1 = fs' := congrArg Prod.fst (some.inj hrun)
      exact openExisting_change
    | none =>
      rw [hfind] at hrun
      split_ifs at hrun with hcreat
      · obtain ⟨⟨fs₁, r⟩, hcreate, heq⟩ := map_eq_some_iff.mp hrun
        obtain ⟨rfl, rfl⟩ | ⟨file, hfile, rfl, rfl⟩ :=
          createFile_cases (h.vacant_of_checkParent hroom hrooted hfind hparent) (.inr rfl) hcreate
        · cases heq
          exact .refl fs₁
        · dsimp only at heq
          cases hstruct : createFileStruct env file with
          | none =>
            rw [hstruct] at heq
            cases heq
            exact .add file hfile rfl (by rw [map_append, map_singleton])
          | some handle =>
            rw [hstruct] at heq
            cases heq
            exact .add file hfile rfl (by rw [attach_keys, map_append, map_singleton])
      · exact (Prod.mk.inj (some.inj hrun)).1 ▸ .refl fs

theorem procfsClose_change {handle : Nat} : Change fs (fs.procfsClose handle) := by
  refine .keep rfl ?_
  rw [procfsClose, List.map_map]
  rfl

theorem createEntry_change {ret : Except FsError File} (hroom : fs.files.length < maxFiles - 1)
    (hplaced : Call.EntryPlaced fs name parent) (hflags : flags = dtDir ∨ flags = dtReg)
    (hrun : createEntry flags fs env name parent = some (fs', ret)) : Change fs fs' := by
  obtain ⟨path, hpath, hcreate⟩ := bind_eq_some_iff.mp hrun
  cases hfind : fs.findEntryPath path with
  | some file =>
    rw [hfind, isSome_some, if_pos rfl] at hcreate
    exact (Prod.mk.inj (some.inj hcreate)).1 ▸ .refl fs
  | none =>
    rw [hfind, isSome_none, if_neg Bool.false_ne_true] at hcreate
    obtain ⟨⟨fs₁, r⟩, hfile, heq⟩ := map_eq_some_iff.mp hcreate
    cases heq
    exact createFile_change (vacant_of_entryPlaced hroom hpath hplaced hfind) hflags hfile

theorem procRmdir_change {ret : Int} (hrun : fs.procRmdir name parent = some (fs', ret)) :
    Change fs fs' := by
  obtain ⟨path, -, heq⟩ := map_eq_some_iff.mp hrun
  cases hfind : fs.findEntryPath path with
  | none =>
    rw [hfind] at heq
    exact (Prod.mk.inj heq).1 ▸ .refl fs
  | some file =>
    rw [hfind] at heq
    dsimp only at heq
    split_ifs at heq with hdir hempty hopen <;> obtain ⟨rfl, -⟩ := Prod.mk.inj heq
    · exact .refl fs
    · exact .refl fs
    · exact .refl fs
    · exact removeDir_change hfind hempty

theorem procDestroyEntry_change (h : Sound fs) {ret : Int}
    (hrun : fs.procDestroyEntry name parent = some (fs', ret)) : Change fs fs' := by
  obtain ⟨path, -, heq⟩ := map_eq_some_iff.mp hrun
  cases hfind : fs.findEntryPath path with
  | none =>
    rw [hfind] at heq
    exact (Prod.mk.inj heq).1 ▸ .refl fs
  | some file =>
    rw [hfind] at heq
    dsimp only at heq
    split_ifs at heq with hreg hopen <;> obtain ⟨rfl, -⟩ := Prod.mk.inj heq
    · exact .refl fs
    · exact .refl fs
    · obtain ⟨hmem, hname⟩ := findEntryPath_spec hfind
      refine .remove file ⟨hname.symm ▸ hfind, fun hdir => ?_⟩ rfl
      -- a regular file is no directory
      rw [File.isDir] at hdir
      obtain hkind | hkind := h.kind file hmem <;> rw [hkind] at hdir hreg
      · exact absurd rfl hreg
      · cases hdir

theorem Call.exec_change {call : Call} (h : Sound fs) (hcall : call.Admitted fs)
    (hrun : call.exec fs = some fs') : Change fs fs' := by
  cases call with
  | rmdir path =>
    cases hrun
    exact rmdir_change
  | procfsClose handle =>
    cases hrun
    exact procfsClose_change
  | _ =>
    obtain ⟨⟨fs₁, ret⟩, hstep, rfl⟩ := map_eq_some_iff.mp hrun
    first
      | exact mkdir_change h hcall.1 hcall.2 hstep
      | exact procfsOpen_change h hcall.1 hcall.2 hstep
      | exact createEntry_change hcall.1 hcall.2 (.inl rfl) hstep
      | exact createEntry_change hcall.1 hcall.2 (.inr rfl) hstep
      | exact procRmdir_change hstep
      | exact procDestroyEntry_change h hstep

end

section

variable {fs : Procfs} {env : Env} {handle : Handle}

theorem sound_init : Sound init := by
  refine ⟨⟨nodup_nil, nodup_nil, ?_, ?_, rfl⟩, ?_, ?_, ?_, ?_, ?_⟩ <;>
    exact fun file hmem => absurd hmem not_mem_nil

/-- The store after `procfs_init` and a mount at `/proc`. -/
theorem sound_mounted (hmount : init.mountCallback env (cstr "/proc") = some (fs, handle)) :
    Sound fs := by
  have hvacant : Vacant init (cstr "/proc") :=
    ⟨by decide, rfl, by decide, by decide, .inl (by decide)⟩
  obtain ⟨⟨fs₁, r⟩, hcreate, hrest⟩ := bind_eq_some_iff.mp hmount
  obtain ⟨file, hr, hrest⟩ := bind_eq_some_iff.mp hrest
  obtain ⟨handle', -, heq⟩ := bind_eq_some_iff.mp hrest
  cases heq
  have hchange : Change init fs₁ := createFile_change hvacant (.inl rfl) hcreate
  exact (sound_init.change hchange).congr rfl attach_keys

/-- The store stays well formed in every run in which a new file finds a number and new
entries are below a directory. -/
theorem store_wellFormed {fs' : Procfs} (hmount : init.mountCallback env (cstr "/proc") =
    some (fs, handle)) (hrun : Runs Call.exec Call.Admitted fs fs') : WellFormed fs' := by
  have hsound : Sound fs' := hrun.invariant Sound
    (fun _ _ _ hs hcall hstep => hs.change (Call.exec_change hs hcall hstep)) (sound_mounted hmount)
  exact hsound.toWellFormed

/-- The entries of a process, in a directory of its own. -/
theorem store_wellFormed_process : ∃ fs handle fs',
    init.mountCallback ⟨1, 2, 0⟩ (cstr "/proc") = some (fs, handle) ∧
      [Call.procMkdir ⟨3, 0, 0⟩ (cstr "1") none,
        .procCreateEntry ⟨4, 0, 0⟩ (cstr "stat") (some (cstr "1"))].foldlM
        (fun fs call => call.exec fs) fs = some fs' ∧
      fs'.files.map File.name = [cstr "/proc", cstr "/proc/1", cstr "/proc/1/stat"] ∧
        WellFormed fs' := by
  have hmount : init.mountCallback ⟨1, 2, 0⟩ (cstr "/proc") = some (_, _) := rfl
  refine ⟨_, _, _, hmount, rfl, rfl, store_wellFormed hmount ?_⟩
  refine (Runs.single (i := .procMkdir ⟨3, 0, 0⟩ (cstr "1") none) ?_ rfl).trans
    (Runs.single (i := .procCreateEntry ⟨4, 0, 0⟩ (cstr "stat") (some (cstr "1"))) ?_ rfl)
  · exact ⟨by decide, by decide⟩
  · exact ⟨by decide, by decide⟩

/-- A directory at depth three. The path made for it has no directory. -/
theorem nested_entry_loses_parent : ∃ fs₀ handle fs₁ a fs₂ b fs₃ c,
    init.mountCallback ⟨1, 2, 0⟩ (cstr "/proc") = some (fs₀, handle) ∧
      fs₀.procMkdir ⟨3, 0, 0⟩ (cstr "a") none = some (fs₁, .ok a) ∧
      fs₁.procMkdir ⟨4, 0, 0⟩ (cstr "b") (some a.entryName) = some (fs₂, .ok b) ∧
      fs₂.procMkdir ⟨5, 0, 0⟩ (cstr "c") (some b.entryName) = some (fs₃, .ok c) ∧
      b.name = cstr "/proc/a/b" ∧ c.name = cstr "/proc/b/c" ∧ ¬WellFormed fs₃ := by
  refine ⟨_, _, _, _, _, _, _, _, rfl, rfl, rfl, rfl, rfl, rfl, fun h => ?_⟩
  exact absurd (h.hasParent _ (mem_append_right _ (mem_singleton_self _))) (by decide)

end

/-- A regular file that nobody has open. -/
def File.Removable (file : File) : Prop := bitmaskCheck file.flags dtReg ∧ file.files = []

/-- The entry of the path is removed if it is a removable file. Otherwise there is an error
and nothing changes. -/
def Unlinks (fs : Procfs) (path : CString) : Prop :=
  (∀ file, fs.findEntryPath path = some file → file.Removable →
    fs.unlink path = some (fs.destroyFile file, 0)) ∧
    ((∀ file, fs.findEntryPath path = some file → ¬file.Removable) → ∃ e < 0,
      fs.unlink path = some (fs, e))

variable (fs : Procfs) (path : CString)

/-- `procfs_unlink` never removes a file, and returns only for an entry or a dot. -/
theorem unlink_cases :
    fs.unlink path = none ∧ fs.findEntryPath path = none ∧ ¬(path = cstr "." ∨ path = cstr "..") ∨
      ((fs.findEntryPath path).isSome ∨ path = cstr "." ∨ path = cstr "..") ∧
        ∃ e < 0, fs.unlink path = some (fs, e) := by
  unfold unlink
  by_cases hdot : path = cstr "." ∨ path = cstr ".."
  · exact .inr ⟨.inr hdot, _, by decide, if_pos hdot⟩
  · rw [if_neg hdot]
    by_cases hfound : (fs.findEntryPath path).isSome
    · exact .inr ⟨.inl hfound, _, by decide, if_pos hfound⟩
    · exact .inl ⟨if_neg hfound, Option.not_isSome_iff_eq_none.mp hfound, hdot⟩

theorem unlinks_iff :
    Unlinks fs path ↔ (∀ file, fs.findEntryPath path = some file → ¬file.Removable) ∧
      ((fs.findEntryPath path).isSome ∨ path = cstr "." ∨ path = cstr "..") := by
  obtain ⟨hunlink, hfind, hdot⟩ | ⟨hreturns, e, he, hunlink⟩ := unlink_cases fs path
  · refine iff_of_false (fun h => ?_) fun h => ?_
    · obtain ⟨e, -, hsome⟩ := h.2 (by simp [hfind])
      cases hunlink.symm.trans hsome
    · exact h.2.elim (by simp [hfind]) hdot
  · constructor
    · refine fun h => ⟨fun file hfile hremovable => ?_, hreturns⟩
      obtain ⟨-, rfl⟩ := Prod.mk.inj (Option.some.inj
        (hunlink.symm.trans (h.1 file hfile hremovable)))
      exact absurd he (by decide)
    · exact fun h => ⟨fun file hfile hremovable => absurd hremovable (h.1 file hfile),
        fun _ => ⟨e, he, hunlink⟩⟩

/-- A new file stays, and a path without an entry leads to the null pointer. -/
theorem unlink_file_and_missing : ∃ fs file, init.procCreateEntry ⟨3, 0, 0⟩ (cstr "a") none = some
    (fs, .ok file) ∧
    file.name = cstr "/proc/a" ∧ fs.unlink (cstr "/proc/a") = some (fs, FsError.eexist.ret) ∧
      ¬Unlinks fs (cstr "/proc/a") ∧ fs.unlink (cstr "/proc/b") = none := by
  refine ⟨_, _, rfl, rfl, rfl, fun h => ?_, rfl⟩
  cases h.1 _ rfl ⟨by decide, rfl⟩

end Procfs

end Hos
