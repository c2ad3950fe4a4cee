import FirmwareMeta.Failure

/-! When a computation that may fail ends well, and when it does not. -/
namespace FirmwareMeta

theorem bind_ok_iff {ε α β : Type} {x : Except ε α} {f : α → Except ε β} {result : β} :
    (x >>= f) = .ok result ↔ ∃ a, x = .ok a ∧ f a = .ok result := by
  cases x <;> simp [bind, Except.bind]

theorem bind_error_iff {ε α β : Type} {x : Except ε α} {f : α → Except ε β} {e : ε} :
    (x >>= f) = .error e ↔ x = .error e ∨ ∃ a, x = .ok a ∧ f a = .error e := by
  cases x <;> simp [bind, Except.bind]

theorem map_ok_iff {ε α β : Type} {x : Except ε α} {f : α → β} {b : β} :
    f <$> x = .ok b ↔ ∃ a, x = .ok a ∧ f a = b := by
  cases x <;> simp [Functor.map, Except.map]

theorem map_error_iff {ε α β : Type} {x : Except ε α} {f : α → β} {e : ε} :
    f <$> x = .error e ↔ x = .error e := by
  cases x <;> simp [Functor.map, Except.map]

theorem mapError_ok_iff {ε ε' α : Type} {x : Except ε α} {f : ε → ε'} {a : α} :
    x.mapError f = .ok a ↔ x = .ok a := by
  cases x with
  | error _ => exact ⟨nofun, nofun⟩
  | ok b =>
    change Except.ok b = Except.ok a ↔ _
    rw [Except.ok.injEq, Except.ok.injEq]

theorem toOption_eq_some_iff {ε α : Type} {x : Except ε α} {a : α} :
    x.toOption = some a ↔ x = .ok a := by
  cases x <;> simp [Except.toOption]

theorem forM_ok_iff {ε α : Type} {f : α → Except ε Unit} {l : List α} {result : Unit} :
    l.forM f = .ok result ↔ ∀ x ∈ l, f x = .ok () := by
  induction l with
  | nil => simp [pure, Except.pure]
  | cons x rest ih =>
    change (f x >>= fun _ => rest.forM f) = _ ↔ _
    rw [bind_ok_iff, List.forall_mem_cons]
    constructor
    · rintro ⟨_, first, others⟩
      exact ⟨first, ih.mp others⟩
    · rintro ⟨first, others⟩
      exact ⟨(), first, ih.mpr others⟩

theorem exists_of_forM_error {ε α : Type} {f : α → Except ε Unit} {l : List α} {e : ε}
    (failed : l.forM f = .error e) : ∃ x ∈ l, f x = .error e := by
  induction l with
  | nil => contradiction
  | cons x rest ih =>
    change (f x >>= fun _ => rest.forM f) = _ at failed
    cases first : f x with
    | error _ =>
      rw [first] at failed
      cases failed
      exact ⟨x, List.mem_cons_self, first⟩
    | ok _ =>
      rw [first] at failed
      obtain ⟨y, mem, found⟩ := ih failed
      exact ⟨y, List.mem_cons_of_mem x mem, found⟩

theorem Failure.lift_ok_iff {ε α : Type} {f : ε → Failure} {x : Except ε α} {a : α} :
    lift f x = .ok a ↔ x = .ok a := by
  cases x <;> simp [lift]

theorem Failure.lift_error_iff {ε α : Type} {f : ε → Failure} {x : Except ε α} {cause : Failure} :
    lift f x = .error cause ↔ ∃ e, x = .error e ∧ f e = cause := by
  cases x <;> simp [lift]

end FirmwareMeta
