import ExactSimplex.Command.Execute

/-!
# Files that are replaced

Replacing a file changes what is found under its own path alone: no directory appears or disappears in
front of another file.  Two tableau files that were stored are therefore found as they were written.

Main results:

- Theorem {lit}`Command.Files.openFile_replace_self`: a replaced file has its new content.
- Theorem {lit}`Command.Files.openFile_replace_of_ne`: other files are opened as before.
- Theorem {lit}`Command.Files.openFile_saveTableau`: stored tableau files are found as written.
-/

namespace ExactSimplex
namespace Command
namespace Files

variable {files files' : Files} {path other : String} {content : List UInt8}

/-- A path that was replaced is no directory, nothing stands in its way, and its file has the new content. -/
theorem replace_eq_ok (h : files.replace path content = .ok files') :
    files.blockedBy path = none ∧ files.hasDirectory path.toList = false ∧
      files' = files.put path content := by
  unfold replace at h
  cases hblocked : files.blockedBy path with
  | some reason =>
      rw [hblocked] at h
      cases h
  | none =>
      rw [hblocked] at h
      dsimp only at h
      split at h
      · cases h
      · next hdirectory =>
          cases h
          exact ⟨rfl, Bool.eq_false_iff.mpr hdirectory, rfl⟩

/-- All other files stay as they are. -/
theorem get_put_of_ne (files : Files) (content : List UInt8) (h : other ≠ path) :
    (files.put path content).get other = files.get other := by
  have hlookup : ∀ entries : List (String × List UInt8),
      (entries.filter fun entry => entry.1 != path).lookup other = entries.lookup other := by
    intro entries
    induction entries with
    | nil => rfl
    | cons entry rest ih =>
        rcases entry with ⟨name, bytes⟩
        by_cases hname : name = path
        · have hother : (other == name) = false := beq_eq_false_iff_ne.mpr (hname ▸ h)
          rw [List.filter_cons_of_neg (by simp [hname]), ih, List.lookup_cons, hother]
        · rw [List.filter_cons_of_pos (by simp [hname]), List.lookup_cons, List.lookup_cons, ih]
  have hother : (other == path) = false := beq_eq_false_iff_ne.mpr h
  unfold get put
  rw [List.lookup_cons, hother]
  exact hlookup files.contents

/-- A directory stays a directory, because no file disappears. -/
theorem hasDirectory_put (path : String) (content : List UInt8) {directory : List Char}
    (h : files.hasDirectory directory = true) :
    (files.put path content).hasDirectory directory = true := by
  rcases List.any_eq_true.mp h with ⟨entry, hentry, hinside⟩
  refine List.any_eq_true.mpr ?_
  by_cases hname : entry.1 = path
  · exact ⟨(path, content), List.mem_cons_self, hname ▸ hinside⟩
  · refine ⟨entry, List.mem_cons_of_mem _ (List.mem_filter.mpr ⟨hentry, ?_⟩), hinside⟩
    simpa using hname

/-- Nothing stands in the way of a path exactly if all its parents are directories and none is a file. -/
theorem blockedBy_eq_none_iff : files.blockedBy path = none ↔
    ∀ directory ∈ parents [] path.toList,
      files.get (String.ofList directory) = none ∧ files.hasDirectory directory = true := by
  unfold blockedBy
  rw [List.findSome?_eq_none_iff]
  refine forall₂_congr fun directory _ => ?_
  cases files.get (String.ofList directory) <;> cases files.hasDirectory directory <;> simp

/-- A file that is put where no directory is blocks no path that was passable. -/
theorem blockedBy_put (content : List UInt8) (hpath : files.hasDirectory path.toList = false)
    (h : files.blockedBy other = none) : (files.put path content).blockedBy other = none := by
  rw [blockedBy_eq_none_iff] at h ⊢
  intro directory hdirectory
  rcases h directory hdirectory with ⟨hget, hhas⟩
  refine ⟨?_, hasDirectory_put path content hhas⟩
  -- The new file is not one of the directories on the way, because it lies where no directory was.
  have hne : String.ofList directory ≠ path := by
    rintro rfl
    rw [String.toList_ofList, hhas] at hpath
    cases hpath
  rw [get_put_of_ne files content hne, hget]

/-- A replaced file has its new content. -/
theorem openFile_replace_self (h : files.replace path content = .ok files') :
    files'.openFile path = .ok ⟨content, none⟩ := by
  rcases replace_eq_ok h with ⟨hblocked, hdirectory, rfl⟩
  unfold openFile
  rw [blockedBy_put content hdirectory hblocked, get_put]

/-- Other files are opened as before. -/
theorem openFile_replace_of_ne {source : Binary.Source} (h : files.replace path content = .ok files')
    (hne : other ≠ path) (hother : files.openFile other = .ok source) :
    files'.openFile other = .ok source := by
  rcases replace_eq_ok h with ⟨-, hdirectory, rfl⟩
  unfold openFile at hother ⊢
  cases hblocked : files.blockedBy other with
  | some reason =>
      rw [hblocked] at hother
      cases hother
  | none =>
      rw [hblocked] at hother
      rw [blockedBy_put content hdirectory hblocked, get_put_of_ne files content hne]
      cases hget : files.get other with
      | some bytes =>
          rw [hget] at hother
          exact hother
      | none =>
          rw [hget] at hother
          dsimp only at hother ⊢
          split at hother
          · next hhas => rwa [if_pos (hasDirectory_put path content hhas)]
          · cases hother

/-! ## Actions on the disk in memory -/

/-- The problem of a file. -/
def problemAt (files : Files) (file : String) : Calc (Except ProblemError Problem) :=
  match files.openFile file with
  | .error reason => .ok (.error (.file file reason))
  | .ok source =>
      match sourceText source with
      | .error reason => .ok (.error (.file file reason))
      | .ok text => Problem.ofText text

/-- The tableau of two files. -/
def tableauAt (files : Files) (numerators denominators : String) (rows columns : Nat) :
    Calc (Except LoadError Binary.Loaded) :=
  match files.openFile numerators with
  | .error reason => .ok (.error (.file numerators reason))
  | .ok nums =>
      match files.openFile denominators with
      | .error reason => .ok (.error (.file denominators reason))
      | .ok dens => Binary.readTableau nums dens rows columns

/-- A composed command passes the files on. -/
theorem bind_apply {α β : Type} (x : StateM Files α) (next : α → StateM Files β) (files : Files) :
    (x >>= next) files = next (x files).1 (x files).2 :=
  rfl

/-- Opening a file for reading changes no file. -/
theorem openFile_disk (path : String) (files : Files) :
    disk.openFile path files = (files.openFile path, files) :=
  rfl

/-- Loading a problem changes no file. -/
theorem loadProblem_disk (file : String) (files : Files) :
    loadProblem disk file files = (files.problemAt file, files) := by
  unfold loadProblem problemAt
  rw [bind_apply, openFile_disk]
  cases files.openFile file with
  | error reason => rfl
  | ok source =>
      dsimp only
      cases sourceText source <;> rfl

/-- Loading a tableau changes no file. -/
theorem loadTableau_disk (numerators denominators : String) (rows columns : Nat) (files : Files) :
    loadTableau disk numerators denominators rows columns files =
      (files.tableauAt numerators denominators rows columns, files) := by
  unfold loadTableau tableauAt
  rw [bind_apply, openFile_disk]
  cases files.openFile numerators with
  | error reason => rfl
  | ok nums =>
      dsimp only
      rw [bind_apply, openFile_disk]
      cases files.openFile denominators <;> rfl

/-- A replacement that succeeds leaves the replaced files. -/
theorem replaceM_eq_ok {outcome : Unit} (h : replaceM path content files = (.ok outcome, files')) :
    files.replace path content = .ok files' := by
  have hget : (MonadState.get : StateM Files Files) files = (files, files) := rfl
  unfold replaceM at h
  rw [bind_apply, hget] at h
  dsimp only at h
  cases hreplace : files.replace path content with
  | error reason =>
      rw [hreplace] at h
      cases h
  | ok replaced =>
      rw [hreplace] at h
      cases h
      rfl

/-- Two actions in a row succeed if the first does, and then the second. -/
theorem andThen_eq_ok {first : StateM Files (Except String Unit)} {failed : String → LoadError}
    {next : StateM Files (Except LoadError Unit)} {outcome : Unit}
    (h : (first >>= fun done => match done with
      | .error reason => pure (.error (failed reason))
      | .ok _ => next) files = (.ok outcome, files')) :
    ∃ between, first files = (.ok (), between) ∧ next between = (.ok outcome, files') := by
  rw [bind_apply] at h
  cases hfirst : (first files).1 with
  | error reason =>
      rw [hfirst] at h
      cases h
  | ok done =>
      rw [hfirst] at h
      exact ⟨(first files).2, Prod.ext hfirst rfl, h⟩

/-- Storing a tableau replaces both files twice, first by empty ones. -/
theorem saveTableau_eq_ok {T : Tableau} {numerators denominators : String} {outcome : Unit}
    (h : saveTableau disk T numerators denominators files = (.ok outcome, files')) :
    ∃ first second third, files.replace numerators [] = .ok first ∧
      first.replace denominators [] = .ok second ∧
      second.replace numerators (Binary.writeTableau T {} {}).numerators.bytes = .ok third ∧
      third.replace denominators (Binary.writeTableau T {} {}).denominators.bytes = .ok files' := by
  rcases andThen_eq_ok h with ⟨first, hfirst, h⟩
  rcases andThen_eq_ok h with ⟨second, hsecond, h⟩
  rcases andThen_eq_ok h with ⟨third, hthird, h⟩
  rcases andThen_eq_ok h with ⟨last, hlast, h⟩
  cases h
  exact ⟨first, second, third, replaceM_eq_ok hfirst, replaceM_eq_ok hsecond, replaceM_eq_ok hthird,
    replaceM_eq_ok hlast⟩

/-- Stored tableau files are found as written, and other files are opened as before. -/
theorem openFile_saveTableau {T : Tableau} {numerators denominators : String} {outcome : Unit}
    (hne : numerators ≠ denominators)
    (h : saveTableau disk T numerators denominators files = (.ok outcome, files')) :
    files'.openFile numerators = .ok ⟨(Binary.writeTableau T {} {}).numerators.bytes, none⟩ ∧
      files'.openFile denominators = .ok ⟨(Binary.writeTableau T {} {}).denominators.bytes, none⟩ ∧
      ∀ other source, other ≠ numerators → other ≠ denominators → files.openFile other = .ok source →
        files'.openFile other = .ok source := by
  rcases saveTableau_eq_ok h with ⟨first, second, third, hfirst, hsecond, hthird, hlast⟩
  refine ⟨openFile_replace_of_ne hlast hne (openFile_replace_self hthird),
    openFile_replace_self hlast, fun other source hnums hdens hother => ?_⟩
  exact openFile_replace_of_ne hlast hdens (openFile_replace_of_ne hthird hnums
    (openFile_replace_of_ne hsecond hdens (openFile_replace_of_ne hfirst hnums hother)))

end Files
end Command
end ExactSimplex
