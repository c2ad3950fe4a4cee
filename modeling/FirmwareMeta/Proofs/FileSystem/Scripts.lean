import FirmwareMeta.FileSystem.Script
import FirmwareMeta.Proofs.Failure

/-! Runs of scripts that may fail, and the operations that a script is made of. -/
namespace FirmwareMeta

variable {ε ε' α β : Type} {w w' : World} {job : ExceptT ε Script α} {f : α → ExceptT ε Script β}

namespace World

theorem perform_read (p : Path) : w.perform (.read p) = (w.files.read p, w) := rfl

theorem perform_stage (directory : Path) (text : String) : w.perform (.stage directory text) =
    match w.files.stage w.temporaries.naming directory text.toUTF8 with
    | .ok (p, files) =>
      match w.temporaries.refuse w.files text.toUTF8 with
      | none => (.ok p, { w with files })
      | some e => (.error (.write e), { w with files := files.discard p })
    | .error (e, tried) => (.error (.create e tried), w) := (rfl)

theorem perform_rename (source target : Path) : w.perform (.rename source target) =
    match w.files.rename source target with
    | .ok files => (.ok (), { w with files })
    | .error e => (.error e, w) := rfl

theorem perform_remove (p : Path) : w.perform (.remove p) =
    match w.files.remove p with
    | .ok files => (.ok (), { w with files })
    | .error e => (.error e, w) := rfl

end World

theorem adapt_bind {g : ε → ε'} :
    (job >>= f).adapt g = job.adapt g >>= fun a => (f a).adapt g := by
  have left : (job >>= f).adapt g = _ := Script.bind_assoc (ExceptT.run job) _ _
  have right : (job.adapt g >>= fun a => (f a).adapt g) = _ :=
    Script.bind_assoc (ExceptT.run job) _ _
  rw [left, right]
  refine congrArg _ (funext fun result => ?_)
  cases result <;> rfl

/-- The outcome of a script that may fail, and the world that it leaves. -/
def World.run (w : World) (job : ExceptT ε Script α) : Except ε α × World :=
  Script.run (ExceptT.run job) w

namespace World

@[simp] theorem run_pure (a : α) : w.run (pure a : ExceptT ε Script α) = (.ok a, w) := rfl

@[simp] theorem run_throw (e : ε) : w.run (throw e : ExceptT ε Script α) = (.error e, w) := rfl

theorem run_bind : w.run (job >>= f) =
    match w.run job with
    | (.ok a, w') => w'.run (f a)
    | (.error e, w') => (.error e, w') := by
  have steps : w.run (job >>= f) = _ := Script.run_bind (ExceptT.run job) _ w
  rw [steps]
  unfold run
  rcases (ExceptT.run job).run w with ⟨_ | _, _⟩ <;> rfl

theorem run_ask_bind (operation : Operation) {next : operation.Answer → ExceptT ε Script β} :
    w.run (ExceptT.lift (Script.ask operation) >>= next) =
      (w.perform operation).2.run (next (w.perform operation).1) := rfl

theorem run_bind_eq_iff {result : Except ε β} : w.run (job >>= f) = (result, w') ↔
    (∃ e, w.run job = (.error e, w') ∧ result = .error e) ∨
      ∃ a middle, w.run job = (.ok a, middle) ∧ middle.run (f a) = (result, w') := by
  rw [run_bind]
  rcases w.run job with ⟨e | a, middle⟩
  · constructor
    · intro found
      obtain ⟨rfl, rfl⟩ := Prod.mk.inj found
      exact Or.inl ⟨e, rfl, rfl⟩
    · rintro (⟨e, failed, rfl⟩ | ⟨a, middle, done, -⟩)
      · obtain ⟨same, rfl⟩ := Prod.mk.inj failed
        rw [Except.error.inj same]
      · simp at done
  · constructor
    · exact fun found => Or.inr ⟨a, middle, rfl, found⟩
    · rintro (⟨e, failed, rfl⟩ | ⟨a, middle, done, found⟩)
      · simp at failed
      · obtain ⟨same, rfl⟩ := Prod.mk.inj done
        rwa [Except.ok.inj same]

theorem run_bind_ok_iff {b : β} : w.run (job >>= f) = (.ok b, w') ↔
    ∃ a middle, w.run job = (.ok a, middle) ∧ middle.run (f a) = (.ok b, w') := by
  rw [run_bind_eq_iff]
  constructor
  · rintro (⟨e, _, same⟩ | done)
    · contradiction
    · exact done
  · exact Or.inr

theorem run_guarded_ok_iff {c : Prop} [Decidable c] {e : ε} {next : PUnit → ExceptT ε Script α}
    {a : α} : w.run (if c then MonadExcept.throw e >>= next else next ()) = (.ok a, w') ↔
      ¬c ∧ w.run (next ()) = (.ok a, w') := by
  split
  · simp [*]
  · simp [*]

theorem run_adapt {g : ε → ε'} :
    w.run (job.adapt g) = ((w.run job).1.mapError g, (w.run job).2) := by
  have steps : w.run (job.adapt g) = _ := Script.run_bind (ExceptT.run job) _ w
  rw [steps]
  rfl

theorem run_adapt_ok_iff {g : ε → ε'} {a : α} :
    (w.run (job.adapt g)).1 = .ok a ↔ (w.run job).1 = .ok a := by
  rw [run_adapt]
  exact mapError_ok_iff

theorem run_map_ok_iff {g : α → β} {b : β} :
    (w.run (g <$> job)).1 = .ok b ↔ ∃ a, (w.run job).1 = .ok a ∧ g a = b := by
  rw [map_eq_pure_bind, run_bind]
  rcases w.run job with ⟨e | a, middle⟩ <;> simp

/-- The operations of a script that may fail. -/
def operations (w : World) (job : ExceptT ε Script α) : List Operation :=
  Script.operations (ExceptT.run job) w

theorem operations_bind : w.operations (job >>= f) = w.operations job ++
    match w.run job with
    | (.ok a, w') => w'.operations (f a)
    | (.error _, _) => [] := by
  have steps : w.operations (job >>= f) = _ := Script.operations_bind (ExceptT.run job) _ w
  rw [steps]
  unfold operations run
  rcases (ExceptT.run job).run w with ⟨_ | _, _⟩ <;> rfl

theorem operations_ask_bind (operation : Operation)
    {next : operation.Answer → ExceptT ε Script β} :
    w.operations (ExceptT.lift (Script.ask operation) >>= next) =
      operation :: (w.perform operation).2.operations (next (w.perform operation).1) := rfl

theorem operations_adapt {g : ε → ε'} : w.operations (job.adapt g) = w.operations job := by
  have steps : w.operations (job.adapt g) = _ := Script.operations_bind (ExceptT.run job) _ w
  rw [steps]
  exact List.append_nil _

theorem operations_map {g : α → β} : w.operations (g <$> job) = w.operations job := by
  rw [map_eq_pure_bind, operations_bind]
  rcases w.run job with ⟨e | a, middle⟩ <;> exact List.append_nil _

theorem temporaries_perform (operation : Operation) :
    (w.perform operation).2.temporaries = w.temporaries := by
  cases operation with
  | stage directory text =>
    rw [perform_stage]
    split
    · split <;> rfl
    · rfl
  | rename source target =>
    rw [perform_rename]
    split <;> rfl
  | remove p =>
    rw [perform_remove]
    split <;> rfl
  | _ => rfl

theorem temporaries_run : (w.run job).2.temporaries = w.temporaries := by
  have kept (s : Script (Except ε α)) (w : World) :
      (s.run w).2.temporaries = w.temporaries := by
    induction s generalizing w with
    | done => rfl
    | perform operation next ih => exact (ih _ _).trans (temporaries_perform operation)
  exact kept (ExceptT.run job) w

end World

namespace Script

/-- A script that may fail, does operations of a kind and reads files, whatever the answers are. A
read that fails ends it. -/
inductive Uses (allowed : Operation → Prop) : Script (Except ε α) → Prop
  | done (result : Except ε α) : Uses allowed (done result)
  | perform {operation : Operation} {next : operation.Answer → Script (Except ε α)} :
      allowed operation → (∀ answer, Uses allowed (next answer)) →
      Uses allowed (perform operation next)
  | read {p : Path} {next : Except IoError ByteArray → Script (Except ε α)} :
      (∀ content, Uses allowed (next (.ok content))) →
      (∀ e, ∃ cause, next (.error e) = .done (.error cause)) →
      Uses allowed (.perform (.read p) next)

variable {allowed : Operation → Prop} {s : Script (Except ε α)}
  {next : Except ε α → Script (Except ε' β)}

theorem Uses.bind (first : s.Uses allowed) (rest : ∀ result, (next result).Uses allowed)
    (fails : ∀ e, ∃ cause, next (.error e) = .done (.error cause)) :
    (s.bind next).Uses allowed := by
  induction first with
  | done result => exact rest result
  | perform permitted _ ih => exact .perform permitted ih
  | read _ ends ih =>
    refine .read ih fun e => ?_
    obtain ⟨cause, ended⟩ := ends e
    obtain ⟨cause', failed⟩ := fails cause
    exact ⟨cause', (congrArg (Script.bind · next) ended).trans failed⟩

theorem Uses.mono {wider : Operation → Prop} (uses : s.Uses allowed)
    (implies : ∀ operation, allowed operation → wider operation) : s.Uses wider := by
  induction uses with
  | done result => exact .done result
  | perform permitted _ ih => exact .perform (implies _ permitted) ih
  | read _ ends ih => exact .read ih ends

end Script

/-- A script that may fail, does operations of a kind and reads files. -/
def Uses (allowed : Operation → Prop) (job : ExceptT ε Script α) : Prop :=
  (ExceptT.run job).Uses allowed

namespace Uses

variable {allowed : Operation → Prop}

theorem pure (a : α) : Uses allowed (pure a : ExceptT ε Script α) := .done _

theorem throw (e : ε) : Uses allowed (throw e : ExceptT ε Script α) := .done _

theorem mk_pure (result : Except ε α) : Uses allowed (ExceptT.mk (Pure.pure result : Script _)) :=
  .done _

theorem ask {operation : Operation} (permitted : allowed operation) :
    Uses allowed (ExceptT.lift (Script.ask operation) : ExceptT ε Script operation.Answer) :=
  .perform permitted fun _ => .done _

theorem read {p : Path} {next : Except IoError ByteArray → ExceptT ε Script β}
    (rest : ∀ content, Uses allowed (next (.ok content)))
    (ends : ∀ e, ∃ cause, next (.error e) = MonadExcept.throw cause) :
    Uses allowed (ExceptT.lift (Script.ask (.read p)) >>= next) :=
  Script.Uses.read rest ends

theorem bind (first : Uses allowed job) (rest : ∀ a, Uses allowed (f a)) :
    Uses allowed (job >>= f) := by
  refine Script.Uses.bind first (fun result => ?_) fun e => ⟨e, rfl⟩
  cases result with
  | ok a => exact rest a
  | error e => exact .done _

theorem map {g : α → β} (first : Uses allowed job) : Uses allowed (g <$> job) := by
  refine Script.Uses.bind first (fun result => ?_) fun e => ⟨e, rfl⟩
  cases result <;> exact .done _

theorem adapt {g : ε → ε'} (uses : Uses allowed job) : Uses allowed (job.adapt g) :=
  Script.Uses.bind uses (fun _ => .done _) fun e => ⟨g e, rfl⟩

theorem ite {c : Prop} [Decidable c] {other : ExceptT ε Script α} (yes : Uses allowed job)
    (no : Uses allowed other) : Uses allowed (if c then job else other) := by
  split
  · exact yes
  · exact no

/-- A script that ends with an error at once in some case. -/
theorem guarded {c : Prop} [Decidable c] {e : ε} {next : PUnit → ExceptT ε Script α}
    (rest : Uses allowed (next ())) :
    Uses allowed (if c then MonadExcept.throw e >>= next else next ()) :=
  .ite (.bind (.throw e) fun _ => rest) rest

theorem forM {g : β → ExceptT ε Script PUnit} {items : List β}
    (each : ∀ x ∈ items, Uses allowed (g x)) : Uses allowed (items.forM g) := by
  induction items with
  | nil => exact pure _
  | cons x rest ih =>
    rw [List.forall_mem_cons] at each
    exact bind each.1 fun _ => ih each.2

theorem mono {wider : Operation → Prop} (uses : Uses allowed job)
    (implies : ∀ operation, allowed operation → wider operation) : Uses wider job :=
  Script.Uses.mono uses implies

end Uses

/-- A script that may fail and whose values, in each world, have a property. -/
def Gives (P : α → Prop) (job : ExceptT ε Script α) : Prop :=
  ∀ (w : World) (a : α) (w' : World), w.run job = (.ok a, w') → P a

namespace Gives

variable {P : α → Prop} {Q : β → Prop}

theorem any : Gives (fun _ => True) job := fun _ _ _ _ => trivial

theorem pure {a : α} (holds : P a) : Gives P (pure a : ExceptT ε Script α) := by
  intro w b w' ran
  rw [← Except.ok.inj (Prod.mk.inj ran).1]
  exact holds

theorem mk_pure {result : Except ε α} (holds : ∀ a, result = .ok a → P a) :
    Gives P (ExceptT.mk (Pure.pure result : Script _)) :=
  fun _ a _ ran => holds a (Prod.mk.inj ran).1

theorem bind (first : Gives P job) (rest : ∀ a, P a → Gives Q (f a)) :
    Gives Q (job >>= f) := by
  intro w b w' ran
  rcases World.run_bind_eq_iff.mp ran with ⟨e, _, failed⟩ | ⟨a, middle, done, further⟩
  · cases failed
  · exact rest a (first w a middle done) middle b w' further

theorem map {g : α → β} (holds : Gives (fun a => Q (g a)) job) : Gives Q (g <$> job) := by
  rw [map_eq_pure_bind]
  exact bind holds fun a => pure

theorem ite {c : Prop} [Decidable c] {other : ExceptT ε Script α} (yes : Gives P job)
    (no : Gives P other) : Gives P (if c then job else other) := by
  split
  · exact yes
  · exact no

end Gives

/-! Files -/

/-- Operations that leave all files as they are. -/
def Operation.Spares : Operation → Prop
  | stage .. => False
  | rename .. => False
  | remove _ => False
  | _ => True

/-- Operations besides reads whose answer comes from the files alone, which stay as they are. -/
def Operation.Looks : Operation → Prop
  | kind _ => True
  | log _ => True
  | _ => False

theorem Operation.Looks.spares {operation : Operation} (looks : operation.Looks) :
    operation.Spares := by
  cases operation <;> first | exact looks | trivial

theorem Operation.Spares.files {operation : Operation} (spares : operation.Spares) :
    (w.perform operation).2.files = w.files := by
  cases operation <;> first | rfl | exact spares.elim

theorem Operation.Looks.answer {operation : Operation} (looks : operation.Looks)
    (same : w.files = w'.files) : (w.perform operation).1 = (w'.perform operation).1 := by
  cases operation with
  | kind p => exact congrArg (FileSystem.kind? · p) same
  | log event => rfl
  | _ => exact looks.elim

theorem Script.Uses.files {s : Script (Except ε α)} (spares : s.Uses Operation.Spares) :
    (s.run w).2.files = w.files := by
  induction spares generalizing w with
  | done result => rfl
  | perform spares _ ih => exact (ih _).trans spares.files
  | read _ ends ih =>
    rw [run, World.perform_read]
    cases w.files.read _ with
    | ok content => exact ih content
    | error e =>
      obtain ⟨cause, ended⟩ := ends e
      simp only [ended, run]

theorem Script.Uses.value {s : Script (Except ε α)} (looks : s.Uses Operation.Looks)
    (same : w.files = w'.files) : (s.run w).1 = (s.run w').1 := by
  induction looks generalizing w w' with
  | done result => rfl
  | @perform operation _ looks _ ih =>
    have after : (w.perform operation).2.files = (w'.perform operation).2.files := by
      rw [looks.spares.files, looks.spares.files, same]
    have answer := looks.answer same
    simp only [run]
    rw [answer]
    exact ih _ after
  | read _ ends ih =>
    rw [run, World.perform_read, run, World.perform_read, same]
    cases w'.files.read _ with
    | ok content => exact ih content same
    | error e =>
      obtain ⟨cause, ended⟩ := ends e
      simp only [ended, run]

theorem Script.Uses.operations_eq {s : Script (Except ε α)} (looks : s.Uses Operation.Looks)
    (same : w.files = w'.files) : s.operations w = s.operations w' := by
  induction looks generalizing w w' with
  | done result => rfl
  | @perform operation _ looks _ ih =>
    have after : (w.perform operation).2.files = (w'.perform operation).2.files := by
      rw [looks.spares.files, looks.spares.files, same]
    have answer := looks.answer same
    simp only [Script.operations]
    rw [answer, ih _ after]
  | read _ ends ih =>
    rw [Script.operations, World.perform_read, Script.operations, World.perform_read, same]
    cases w'.files.read _ with
    | ok content => exact congrArg _ (ih content same)
    | error e =>
      obtain ⟨cause, ended⟩ := ends e
      simp only [ended, Script.operations]

theorem Script.Uses.output {s : Script (Except ε α)} (looks : s.Uses Operation.Looks) :
    (s.run w).2.output = w.output := by
  induction looks generalizing w with
  | done result => rfl
  | @perform operation _ looks _ ih =>
    refine (ih _).trans ?_
    cases operation <;> first | rfl | exact looks.elim
  | read _ ends ih =>
    rw [run, World.perform_read]
    cases w.files.read _ with
    | ok content => exact ih content
    | error e =>
      obtain ⟨cause, ended⟩ := ends e
      simp only [ended, run]

theorem Uses.files (spares : Uses Operation.Spares job) : (w.run job).2.files = w.files :=
  Script.Uses.files spares

/-- A script that only looks at files prints nothing. -/
theorem Uses.output (looks : Uses Operation.Looks job) : (w.run job).2.output = w.output :=
  Script.Uses.output looks

/-- What a script that only looks at files gives is the same in each world with those files. -/
theorem Uses.value (looks : Uses Operation.Looks job) (same : w.files = w'.files) :
    (w.run job).1 = (w'.run job).1 :=
  Script.Uses.value looks same

theorem Uses.operations_eq (looks : Uses Operation.Looks job) (same : w.files = w'.files) :
    w.operations job = w'.operations job :=
  Script.Uses.operations_eq looks same

theorem Uses.spares (looks : Uses Operation.Looks job) : Uses Operation.Spares job :=
  looks.mono fun _ => Operation.Looks.spares

theorem Uses.bind_ok_iff (looks : Uses Operation.Looks job)
    (rest : ∀ a, Uses Operation.Looks (f a)) {b : β} :
    (w.run (job >>= f)).1 = .ok b ↔ ∃ a, (w.run job).1 = .ok a ∧ (w.run (f a)).1 = .ok b := by
  have files := looks.spares.files (w := w)
  rw [World.run_bind]
  rcases done : w.run job with ⟨e | a, middle⟩
  · simp
  · rw [done] at files
    simp [(rest a).value files]

theorem Uses.mem_operations_bind (looks : Uses Operation.Looks job)
    (rest : ∀ a, Uses Operation.Looks (f a)) {operation : Operation} :
    operation ∈ w.operations (job >>= f) ↔ operation ∈ w.operations job ∨
      ∃ a, (w.run job).1 = .ok a ∧ operation ∈ w.operations (f a) := by
  have files := looks.spares.files (w := w)
  rw [World.operations_bind, List.mem_append]
  rcases done : w.run job with ⟨e | a, middle⟩
  · simp
  · rw [done] at files
    simp [(rest a).operations_eq files]

end FirmwareMeta
