import Mathlib.Data.List.Infix
import DeviceTwin.Proofs.Record
import DeviceTwin.Workspace

/-!
Files after a write. A file is written into a directory that exists, so no directory comes into
being and none goes away; paths lead where they led before, and nothing is different but the file.
-/
namespace DeviceTwin

namespace Entries

variable {κ α : Type} [DecidableEq κ] {key other : κ} {value : α} {entries : List (κ × α)}

theorem lookup_put_self [BEq κ] [LawfulBEq κ] :
    (put key value entries).lookup key = some value := by
  induction entries with
  | nil => simp [put]
  | cons entry rest ih =>
    obtain ⟨k, v⟩ := entry
    rw [put]
    split
    · next h => simp [h]
    · next h => rw [List.lookup_cons, beq_false_of_ne (Ne.symm h), ih]

theorem lookup_put_of_ne [BEq κ] [LawfulBEq κ] (h : other ≠ key) :
    (put key value entries).lookup other = entries.lookup other := by
  induction entries with
  | nil => simp [put, h]
  | cons entry rest ih =>
    obtain ⟨k, v⟩ := entry
    rw [put]
    split
    · next hk => rw [List.lookup_cons, List.lookup_cons, hk, beq_false_of_ne h]
    · rw [List.lookup_cons, List.lookup_cons, ih]

/-- The keys are those from before and the one that was put. -/
theorem any_put (key : κ) (value : α) (entries : List (κ × α)) (p : κ → Bool) :
    (put key value entries).any (fun entry => p entry.1) =
      (p key || entries.any fun entry => p entry.1) := by
  induction entries with
  | nil => rfl
  | cons entry rest ih =>
    obtain ⟨k, v⟩ := entry
    rw [put]
    split
    · next hk => subst hk; simp
    · rw [List.any_cons, ih, List.any_cons, Bool.or_left_comm]

end Entries

namespace Workspace

variable {w : Workspace} {place place' other directory start : Place} {name text : String}
  {names : List String} {contents : ByteArray}

section Directories

/-- Whatever is above a directory is a directory. -/
theorem isDirectory_of_prefix (h : w.isDirectory directory = true) (hp : other <+: directory) :
    w.isDirectory other = true := by
  simp only [isDirectory, Bool.or_eq_true] at h ⊢
  rcases h with (hstandard | hup) | hfiles
  · have hothers : ∀ place ∈ standardDirectories, ∀ above ∈ place.inits,
        (standardDirectories.contains above || above.all (· = "..")) = true := by decide
    left
    rw [← Bool.or_eq_true]
    exact hothers directory (List.contains_iff_mem.mp hstandard) other ((List.mem_inits _ _).mpr hp)
  · obtain ⟨rest, rfl⟩ := hp
    rw [List.all_append, Bool.and_eq_true] at hup
    exact .inl (.inr hup.1)
  · obtain ⟨file, hfile, hbelow⟩ := List.any_eq_true.mp hfiles
    rw [Bool.and_eq_true, List.isPrefixOf_iff_prefix, bne_iff_ne] at hbelow
    refine .inr (List.any_eq_true.mpr ⟨file, hfile, ?_⟩)
    rw [Bool.and_eq_true, List.isPrefixOf_iff_prefix, bne_iff_ne]
    refine ⟨hp.trans hbelow.1, ?_⟩
    rintro rfl
    exact hbelow.2 (hbelow.1.eq_of_length_le hp.length_le).symm

/-- A file in a directory makes no new directory. -/
theorem isDirectory_save (h : w.isDirectory directory = true) (name : String)
    (contents : ByteArray) (other : Place) :
    (w.save (directory ++ [name]) contents).isDirectory other = w.isDirectory other := by
  unfold save
  split
  · rfl
  · have habove : (other.isPrefixOf (directory ++ [name]) && directory ++ [name] != other) = true →
        w.isDirectory other = true := by
      intro hbelow
      rw [Bool.and_eq_true, List.isPrefixOf_iff_prefix, bne_iff_ne] at hbelow
      rcases List.prefix_concat_iff.mp hbelow.1 with rfl | hprefix
      · exact absurd rfl hbelow.2
      · exact isDirectory_of_prefix h hprefix
    have hany := Entries.any_put (directory ++ [name]) contents w.files fun path =>
      other.isPrefixOf path && path != other
    simp only [isDirectory] at habove ⊢
    rw [hany]
    grind

theorem isDirectory_of_look (h : w.look directory = .directory) :
    w.isDirectory directory = true := by
  unfold look at h
  split at h
  · cases h
  · split at h
    · cases h
    · split at h
      · assumption
      · cases h

theorem look_save_self (w : Workspace) (contents : ByteArray) (h : place ≠ nullDevice) :
    (w.save place contents).look place = .file contents := by
  rw [look, if_neg h, save, if_neg h, Entries.lookup_put_self]

/-- Everything else is what it was, be it a file or a directory or nothing. -/
theorem look_save_of_ne (hdir : w.look directory = .directory) (hne : other ≠ directory ++ [name]) :
    (w.save (directory ++ [name]) contents).look other = w.look other := by
  have hdirectory := isDirectory_save (isDirectory_of_look hdir) name contents other
  unfold save at hdirectory ⊢
  split
  · rfl
  · next h =>
    rw [if_neg h] at hdirectory
    rw [look, look, hdirectory, Entries.lookup_put_of_ne hne]

end Directories

section Paths

/-- The place of the file that a path leads to, whether there is one or not. -/
def locate (w : Workspace) (text : String) : Except Obstacle Place := do
  let path ← parsePath text
  let place ← w.walk path.start path.names
  if path.slashed then w.enter place
  return place

/-- The contents of the file at a place. -/
def contentsAt (w : Workspace) (place : Place) : Except Obstacle ByteArray :=
  match w.look place with
  | .file contents => .ok contents
  | .directory => .error .isDirectory
  | .absent => .error .missing

theorem read_eq (w : Workspace) (text : String) : w.read text = w.locate text >>= w.contentsAt := by
  simp only [read, locate, bind_assoc]
  refine bind_congr fun path => bind_congr fun place => ?_
  cases path.slashed with
  | false => rfl
  | true => cases w.enter place <;> rfl

theorem enter_eq_ok_iff {u : Unit} : w.enter place = .ok u ↔ w.look place = .directory := by
  unfold enter
  split <;> simp_all

theorem locate_eq_ok_iff : w.locate text = .ok place ↔ ∃ path, parsePath text = .ok path ∧
    w.walk path.start path.names = .ok place ∧
      (path.slashed = true → w.look place = .directory) := by
  simp only [locate, bind_eq_ok_iff]
  refine exists_congr fun path => and_congr_right fun _ => ?_
  cases path.slashed with
  | false => simp [pure, Except.pure]
  | true => simp [bind_eq_ok_iff, enter_eq_ok_iff, pure, Except.pure]

/-- One workspace has the same directories as the other. -/
def SameDirectories (w w' : Workspace) : Prop :=
  ∀ place, w'.look place = .directory ↔ w.look place = .directory

namespace SameDirectories

variable {w' : Workspace} (h : SameDirectories w w')

include h

theorem step_eq_ok_iff : w'.step place name = .ok place' ↔ w.step place name = .ok place' := by
  simp only [step, bind_eq_ok_iff, enter_eq_ok_iff, h place]

theorem walk_eq_ok_iff : w'.walk start names = .ok place ↔ w.walk start names = .ok place := by
  induction names generalizing start with
  | nil => exact Iff.rfl
  | cons name rest ih =>
    simp only [walk, List.foldlM_cons, bind_eq_ok_iff, h.step_eq_ok_iff] at ih ⊢
    simp only [ih]

/-- Paths lead to the same places. -/
theorem locate_eq_ok_iff : w'.locate text = .ok place ↔ w.locate text = .ok place := by
  simp only [Workspace.locate_eq_ok_iff, h.walk_eq_ok_iff, h place]

end SameDirectories

theorem child_eq_ok (h : child directory name = .ok place) : place = directory ++ [name] := by
  unfold child at h
  split at h <;> cases h
  rfl

theorem step_of_ne (hdot : name ≠ ".") (hdots : name ≠ "..") :
    w.step directory name = .ok place ↔
      w.look directory = .directory ∧ child directory name = .ok place := by
  unfold step
  split
  · exact absurd rfl hdot
  · exact absurd rfl hdots
  · simp only [bind_eq_ok_iff, enter_eq_ok_iff, exists_and_left, exists_const]

theorem walk_concat : w.walk start (names ++ [name]) = .ok place ↔
    ∃ directory, w.walk start names = .ok directory ∧ w.step directory name = .ok place := by
  simp only [walk, List.foldlM_append, bind_eq_ok_iff]
  refine exists_congr fun directory => and_congr_right fun _ => ?_
  simp [List.foldlM_cons]

/-- The last segment of a path is the name of a file. -/
structure EndsIn (path : Path) (name : String) : Prop where
  not_slashed : path.slashed = false
  last : path.names.getLast? = some name
  ne_dot : name ≠ "."
  ne_dots : name ≠ ".."

/-- A file can be kept at a path: the path ends in the name of a file and can be followed to it, and
there is no directory in its place, nor the null device. -/
structure Writable (w : Workspace) (text : String) (place : Place) : Prop where
  leads : w.locate text = .ok place
  free : w.look place ≠ .directory
  kept : place ≠ nullDevice
  named : ∃ path name, parsePath text = .ok path ∧ EndsIn path name

theorem target_eq_ok_iff : w.target text = .ok place ↔ ∃ path directory name,
    parsePath text = .ok path ∧ EndsIn path name ∧
      w.walk path.start path.names.dropLast = .ok directory ∧ w.look directory = .directory ∧
      child directory name = .ok place ∧ w.look place ≠ .directory := by
  constructor
  · intro h
    simp only [target, bind_eq_ok_iff] at h
    obtain ⟨path, hpath, directory, hwalk, _, henter, h⟩ := h
    split at h
    · cases h
    · cases h
    · cases h
    · next name hdot hdots hlast =>
      split at h
      · cases h
      · next hslashed =>
        obtain ⟨file, hchild, h⟩ := bind_eq_ok_iff.mp h
        split at h
        · cases h
        · next hfree =>
          cases h
          exact ⟨path, directory, name, hpath, ⟨Bool.eq_false_iff.mpr hslashed, hlast, hdot, hdots⟩,
            hwalk, enter_eq_ok_iff.mp henter, hchild, hfree⟩
  · rintro ⟨path, directory, name, hpath, hends, hwalk, hdir, hchild, hfree⟩
    simp only [target, bind_eq_ok_iff]
    refine ⟨path, hpath, directory, hwalk, (), enter_eq_ok_iff.mpr hdir, ?_⟩
    rw [hends.last]
    split
    · next h => cases h
    · next h => exact absurd (Option.some.inj h) hends.ne_dot
    · next h => exact absurd (Option.some.inj h) hends.ne_dots
    · next h =>
      cases h
      rw [hends.not_slashed, if_neg Bool.false_ne_true]
      refine bind_eq_ok_iff.mpr ⟨place, hchild, ?_⟩
      split
      · next h => exact absurd h hfree
      · rfl

/-- The path of a file to be written is followed to the place where it is written. -/
theorem writable_iff :
    w.Writable text place ↔ w.target text = .ok place ∧ place ≠ nullDevice := by
  rw [target_eq_ok_iff]
  constructor
  · rintro ⟨hleads, hfree, hkept, path, name, hpath, hends⟩
    obtain ⟨_, hpath', hwalk, -⟩ := locate_eq_ok_iff.mp hleads
    cases hpath.symm.trans hpath'
    rw [← List.dropLast_append_getLast? name hends.last, walk_concat] at hwalk
    obtain ⟨directory, hwalk, hstep⟩ := hwalk
    obtain ⟨hdir, hchild⟩ := (step_of_ne hends.ne_dot hends.ne_dots).mp hstep
    exact ⟨⟨path, directory, name, hpath, hends, hwalk, hdir, hchild, hfree⟩, hkept⟩
  · rintro ⟨⟨path, directory, name, hpath, hends, hwalk, hdir, hchild, hfree⟩, hkept⟩
    refine ⟨locate_eq_ok_iff.mpr ⟨path, hpath, ?_, by simp [hends.not_slashed]⟩, hfree, hkept, path,
      name, hpath, hends⟩
    rw [← List.dropLast_append_getLast? name hends.last, walk_concat]
    exact ⟨directory, hwalk, (step_of_ne hends.ne_dot hends.ne_dots).mpr ⟨hdir, hchild⟩⟩

/-- One workspace is the other with these contents in the file at a place, and nothing else is
different between them, neither by place nor by path. -/
structure Saves (w saved : Workspace) (place : Place) (contents : ByteArray) : Prop where
  look_self : saved.look place = .file contents
  look_other : ∀ other, other ≠ place → saved.look other = w.look other
  read_self : ∀ text, w.locate text = .ok place → saved.read text = .ok contents
  read_other : ∀ text, w.locate text ≠ .ok place → ∀ bytes,
    saved.read text = .ok bytes ↔ w.read text = .ok bytes

theorem read_eq_ok_iff {bytes : ByteArray} : w.read text = .ok bytes ↔
    ∃ place, w.locate text = .ok place ∧ w.look place = .file bytes := by
  rw [read_eq, bind_eq_ok_iff]
  refine exists_congr fun place => and_congr_right fun _ => ?_
  unfold contentsAt
  split <;> simp_all

theorem saves_save (h : w.Writable text place) (contents : ByteArray) :
    w.Saves (w.save place contents) place contents := by
  obtain ⟨_, directory, name, _, _, _, hdir, hchild, hfree⟩ :=
    target_eq_ok_iff.mp (writable_iff.mp h).1
  have hself := look_save_self w contents h.kept
  obtain rfl := child_eq_ok hchild
  have hother : ∀ other, other ≠ directory ++ [name] →
      (w.save (directory ++ [name]) contents).look other = w.look other :=
    fun other => look_save_of_ne hdir
  have hsame : w.SameDirectories (w.save (directory ++ [name]) contents) := by
    intro other
    by_cases hplace : other = directory ++ [name]
    · subst hplace
      rw [hself]
      exact ⟨nofun, fun h => absurd h hfree⟩
    · rw [hother other hplace]
  refine ⟨hself, hother, fun path hpath => ?_, fun path hpath bytes => ?_⟩
  · exact read_eq_ok_iff.mpr ⟨_, hsame.locate_eq_ok_iff.mpr hpath, hself⟩
  · rw [read_eq_ok_iff, read_eq_ok_iff]
    refine exists_congr fun other => ?_
    rw [hsame.locate_eq_ok_iff]
    refine and_congr_right fun hlocate => ?_
    rw [hother other fun heq => hpath (heq ▸ hlocate)]

end Paths

end Workspace
end DeviceTwin
