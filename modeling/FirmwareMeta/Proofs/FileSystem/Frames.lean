import FirmwareMeta.Proofs.Failure
import FirmwareMeta.Proofs.FileSystem.Places
import FirmwareMeta.Proofs.FileSystem.Scripts

/-! What a script takes from files. It gives the same on other files that have the same directories
and the same entries in the places that it reads or tests for. -/
namespace FirmwareMeta

/-- The paths of the files and directories that an operation reads or tests for. A move takes what
its source holds. -/
def Operation.consulted : Operation → List Path
  | kind p => [p]
  | read p => [p]
  | rename source _ => [source]
  | _ => []

namespace FileSystem

variable {fs fs' : FileSystem} {p : Path} {place : Location}

/-- Where a path leads, two file systems have the same entry. -/
def AgreeAt (fs fs' : FileSystem) (p : Path) : Prop :=
  ∀ place, fs.locate p = .ok place → fs'.get? place = fs.get? place

/-- Why nothing is found can differ: what is in front of a place that is not there may come and
go. -/
theorem AgreeAt.find_ok_iff (agree : AgreeAt fs fs' p) (same : SameTree fs fs') {e : Entry} :
    fs'.find p = .ok e ↔ fs.find p = .ok e := by
  have found (fs : FileSystem) : fs.find p = .ok e ↔
      ∃ place, fs.locate p = .ok place ∧ fs.get? place = some e := by
    unfold find
    cases fs.locate p with
    | error _ => simp
    | ok place => cases at_place : fs.get? place <;> simp [at_place]
  simp only [found, same.locate_ok_iff]
  refine exists_congr fun place => and_congr_right fun led => ?_
  rw [agree place led]

/-- The place that one path names is where another path leads. -/
def Meets (fs : FileSystem) (output p : Path) : Prop :=
  ∃ place, fs.Names output place ∧ fs.locate p = .ok place

instance (fs : FileSystem) (output p : Path) : Decidable (fs.Meets output p) :=
  decidable_of_iff ((fs.locate p).toOption.any fun place => fs.Names output place) <| by
    simp only [Option.any_eq_true, toOption_eq_some_iff, decide_eq_true_eq, Meets, and_comm]

theorem AgreeAt.kind?_eq (agree : AgreeAt fs fs' p) (same : SameTree fs fs') :
    fs'.kind? p = fs.kind? p := by
  have known (fs : FileSystem) (kind : FileKind) : fs.kind? p = some kind ↔
      ∃ e, fs.find p = .ok e ∧ e.kind = kind := by
    unfold kind?
    cases fs.find p <;> simp
  refine Option.ext fun kind => ?_
  simp only [known, agree.find_ok_iff same]

theorem AgreeAt.read_ok_iff (agree : AgreeAt fs fs' p) (same : SameTree fs fs')
    {content : ByteArray} : fs'.read p = .ok content ↔ fs.read p = .ok content := by
  have held (fs : FileSystem) : fs.read p = .ok content ↔ fs.find p = .ok (.file content) := by
    unfold read
    cases fs.find p with
    | error _ => simp
    | ok e => cases e <;> simp
  simp only [held, agree.find_ok_iff same]

end FileSystem

open FileSystem

variable {ε α : Type} {w w' : World} {job : ExceptT ε Script α}

/-- What comes of a script that only looks at files, besides the error that a failure gives. The
induction is on the script; a read that fails has no script behind it. -/
theorem Script.Uses.toOption_eq {s : Script (Except ε α)} (looks : s.Uses Operation.Looks)
    (same : SameTree w.files w'.files)
    (agree : ∀ o ∈ s.operations w, ∀ p ∈ o.consulted, AgreeAt w.files w'.files p) :
    (s.run w').1.toOption = (s.run w).1.toOption := by
  induction looks generalizing w w' with
  | done result => rfl
  | @perform operation next looks _ ih =>
    rw [operations, List.forall_mem_cons] at agree
    have files := looks.spares.files (w := w)
    have files' := looks.spares.files (w := w')
    have answer : (w'.perform operation).1 = (w.perform operation).1 := by
      cases operation with
      | kind p => exact (agree.1 p List.mem_cons_self).kind?_eq same
      | log event => rfl
      | _ => exact looks.elim
    simp only [run]
    rw [answer]
    refine ih _ ?_ ?_
    · rwa [files, files']
    · rw [files, files']
      exact agree.2
  | @read p next _ ends ih =>
    rw [operations, List.forall_mem_cons, World.perform_read] at agree
    have held (content : ByteArray) :
        w'.files.read p = .ok content ↔ w.files.read p = .ok content :=
      (agree.1 p List.mem_cons_self).read_ok_iff same
    rw [run, World.perform_read, run, World.perform_read]
    cases found : w.files.read p with
    | ok content =>
      rw [(held content).mpr found]
      refine ih content same ?_
      have further := agree.2
      simp only [found] at further
      exact further
    | error e =>
      obtain ⟨cause, ended⟩ := ends e
      cases found' : w'.files.read p with
      | ok content =>
        rw [(held content).mp found'] at found
        contradiction
      | error e' =>
        obtain ⟨cause', ended'⟩ := ends e'
        simp only [ended, ended', run, Except.toOption]

theorem Uses.toOption_eq (looks : Uses Operation.Looks job) (same : SameTree w.files w'.files)
    (agree : ∀ o ∈ w.operations job, ∀ p ∈ o.consulted, AgreeAt w.files w'.files p) :
    (w'.run job).1.toOption = (w.run job).1.toOption :=
  Script.Uses.toOption_eq looks same agree

end FirmwareMeta
