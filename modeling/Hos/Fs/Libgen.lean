import Hos.Lib.Bytes

/-!
# Path names of `libgen.c`

A C string is the list of its bytes without the final zero. `dirname` works in a
static buffer of `PATH_MAX` bytes, and every caller is done with its result before
the next call. For a path that ends in a slash it looks for an earlier slash with
`memchr`, which gives the first one and not the last.
-/

namespace Hos

open Option List

/-- A C string without its final zero. -/
abbrev CString := List Byte

/-- The C string of a literal. -/
def cstr (s : String) : CString := s.toList.map fun c => BitVec.ofNat 8 c.toNat

namespace CString

/-- The character `'/'`. -/
def slash : Byte := 47

/-- The place of the last `c`. -/
def strrchr (c : Byte) : CString → Option Nat
  | [] => none
  | x :: s =>
    match strrchr c s with
    | some i => some (i + 1)
    | none => if x = c then some 0 else none

/-- The place of the first `c` in the first `n` bytes. -/
def memchr (s : CString) (c : Byte) (n : Nat) : Option Nat := (s.take n).findIdx? (· == c)

def dirname (path : CString) : CString :=
  -- `last_slash[0] = '\0'`
  let close : Option Nat → CString := fun last => last.elim (cstr ".") path.take
  match strrchr slash path with
  | none => close none
  | some 0 => close (some 1)
  | some (i + 1) =>
    if path.length = i + 2 then close (memchr path slash (i + 1)) else close (some (i + 1))

def basename (path : CString) : CString :=
  (strrchr slash path).elim path fun i => path.drop (i + 1)

/-- The path up to the last slash, which is `/` for the names in the root. -/
def parent (path : CString) : CString :=
  (strrchr slash path).elim (cstr ".") fun i => if i = 0 then [slash] else path.take i

section

variable {c x : Byte} {s t path : CString} {i : Nat}

theorem strrchr_eq_none_iff : strrchr c s = none ↔ c ∉ s := by
  induction s with
  | nil => simp [strrchr]
  | cons x s ih =>
    rw [strrchr]
    cases hrest : strrchr c s with
    | some i =>
      have hmem : c ∈ s := by
        by_contra hnone
        rw [ih.mpr hnone] at hrest
        cases hrest
      simp [hmem]
    | none =>
      have hnot := ih.mp hrest
      by_cases hx : x = c
      · simp [hx]
      · simp [hx, hnot, Ne.symm hx]

theorem strrchr_append (hnot : c ∉ t) : strrchr c (s ++ c :: t) = some s.length := by
  induction s with
  | nil =>
    rw [nil_append, strrchr, strrchr_eq_none_iff.mpr hnot]
    exact if_pos rfl
  | cons x s ih => rw [cons_append, strrchr, ih, length_cons]

/-- The last slash splits the path. -/
theorem exists_split (h : slash ∈ path) :
    ∃ dir base, path = dir ++ slash :: base ∧ slash ∉ base ∧
      strrchr slash path = some dir.length := by
  induction path with
  | nil => exact absurd h not_mem_nil
  | cons x path ih =>
    by_cases hrest : slash ∈ path
    · obtain ⟨dir, base, rfl, hbase, -⟩ := ih hrest
      exact ⟨x :: dir, base, rfl, hbase, strrchr_append (s := x :: dir) hbase⟩
    · obtain rfl : slash = x := (mem_cons.mp h).resolve_right hrest
      exact ⟨[], path, rfl, hrest, strrchr_append (s := []) hrest⟩

theorem dirname_append {dir base : CString} (hbase : slash ∉ base) (hname : dir = [] ∨ base ≠ []) :
    dirname (dir ++ slash :: base) = parent (dir ++ slash :: base) := by
  rw [dirname, parent, strrchr_append hbase]
  cases dir with
  | nil => rfl
  | cons x dir =>
    have hpos : 0 < base.length := length_pos_iff.mpr (hname.resolve_left (cons_ne_nil x dir))
    have hlong : (x :: dir ++ slash :: base).length ≠ dir.length + 2 := by
      simp only [length_cons, length_append]
      omega
    exact if_neg hlong

/-- The first slash ends the path at once. -/
theorem dirname_trailing {dir : CString} : dirname (slash :: dir ++ [slash]) = [] := by
  have hlong : (slash :: dir ++ [slash]).length = dir.length + 2 := by simp
  rw [dirname, strrchr_append not_mem_nil]
  exact if_pos hlong

/-- A path that starts at the root. -/
def Rooted (path : CString) : Prop := path.head? = some slash

instance : Decidable (Rooted path) := inferInstanceAs (Decidable (_ = _))

theorem Rooted.parent (h : Rooted path) : Rooted path.parent := by
  obtain ⟨dir, base, rfl, -, hlast⟩ := exists_split (mem_of_mem_head? h)
  rw [CString.parent, hlast]
  cases dir with
  | nil => rfl
  | cons x dir => exact h

/-- For a path from the root `dirname` is the parent, or empty when the path ends in a
slash. -/
theorem Rooted.dirname_eq (h : Rooted path) :
    dirname path = path.parent ∨ dirname path = [] ∧ path.getLast? = some slash := by
  obtain ⟨dir, base, rfl, hbase, -⟩ := exists_split (mem_of_mem_head? h)
  by_cases hname : dir = [] ∨ base ≠ []
  · exact Or.inl (dirname_append hbase hname)
  · obtain ⟨hdir, rfl⟩ := not_or.mp hname |>.imp_right not_not.mp
    cases dir with
    | nil => exact absurd rfl hdir
    | cons x dir =>
      obtain rfl : slash = x := (some.inj h).symm
      exact Or.inr ⟨dirname_trailing, getLast?_concat⟩

end

/-- `PATH_MAX`. -/
def pathMax : Nat := 4096

/-- `dirname` with its buffer. A path that does not fit is copied over what is behind. -/
def dirnameBuffered (path : CString) : Option CString :=
  if path.length < pathMax then some (dirname path) else none

/-- The absolute path of a list of names. -/
def ofNames (names : List CString) : CString := names.flatMap (slash :: ·)

/-- The directory with the given names on its path. -/
def ofParents (names : List CString) : CString := if names = [] then [slash] else ofNames names

/-- The path of a name in a directory. -/
def join (dir base : CString) : CString := (if dir = [slash] then [] else dir) ++ slash :: base

section

variable {dir : List CString} {base : CString}

theorem ofNames_concat : ofNames (dir ++ [base]) = ofNames dir ++ slash :: base := by simp [ofNames]

/-- `dirname` of a canonical path gives the path of its parent exactly when the path fits the
buffer and has no slash at its end. Without one, joining `dirname` and `basename` gives the
path again. -/
theorem dirname_parent_iff (hdir : ∀ name ∈ dir, name ≠ [] ∧ slash ∉ name)
    (hbase : base ≠ [] ∧ slash ∉ base) (trailing : Bool) :
    (dirnameBuffered (ofNames (dir ++ [base]) ++ if trailing then [slash] else []) =
      some (ofParents dir) ↔ trailing = false ∧ (ofNames (dir ++ [base])).length < pathMax) ∧
      ((ofNames (dir ++ [base])).length < pathMax →
        (dirnameBuffered (ofNames (dir ++ [base]))).map
          (join · (basename (ofNames (dir ++ [base])))) = some (ofNames (dir ++ [base]))) := by
  have hlast := strrchr_append (s := ofNames dir) hbase.2
  have hroot : ofNames dir = [] ↔ dir = [] := by
    cases dir <;> simp [ofNames]
  have hparent : dirname (ofNames (dir ++ [base])) = ofParents dir := by
    rw [ofNames_concat, dirname_append hbase.2 (Or.inr hbase.1), parent, hlast, elim_some,
      take_left, ofParents]
    simp only [length_eq_zero_iff, hroot]
  have hjoin : join (ofParents dir) (basename (ofNames (dir ++ [base]))) =
      ofNames (dir ++ [base]) := by
    rw [ofNames_concat, basename, hlast, elim_some, drop_length_add_append, join, ofParents]
    cases dir with
    | nil => rfl
    | cons name dir =>
      have hname := (hdir name mem_cons_self).1
      simp [ofNames, hname]
  constructor
  · cases trailing with
    | false => simp [dirnameBuffered, hparent]
    | true =>
      obtain ⟨rest, hrest⟩ : ∃ rest, ofNames (dir ++ [base]) = slash :: rest := by
        cases dir <;> exact ⟨_, rfl⟩
      have hne : ofParents dir ≠ [] := by
        rw [ofParents]
        split
        · simp
        · exact hroot.not.mpr ‹_›
      have hempty : dirname (ofNames (dir ++ [base]) ++ [slash]) = [] := by
        rw [hrest]
        exact dirname_trailing
      simp [dirnameBuffered, hempty, hne.symm]
  · intro hlength
    rw [dirnameBuffered, if_pos hlength, hparent, map_some, hjoin]

end

theorem dirname_parent_home : dirnameBuffered (cstr "/home/user") = some (cstr "/home") :=
  (@dirname_parent_iff [cstr "home"] (cstr "user") (by decide) (by decide) false).1.mpr
    ⟨rfl, by decide⟩

/-- A slash at the end leaves nothing of the path. -/
theorem dirname_trailing_empty : dirnameBuffered (cstr "/home/user/") = some [] := by decide

end CString

end Hos
