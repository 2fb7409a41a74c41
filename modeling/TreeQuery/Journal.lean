import TreeQuery.Event

/-! # Journals — computations that may fail and report what they do

A journal is the outcome of a computation, a value or a fault, together with the events that it
reported on the way, in order. What was reported before a fault stays in the journal.
-/

namespace TreeQuery

/-- The outcome of a computation and the events it has reported. -/
structure Journal (ε α : Type) where
  outcome : Except ε α
  events : List Event
deriving Repr

namespace Journal

variable {ε ε' α β : Type}

/-- A computation that reports nothing. -/
def ofExcept (outcome : Except ε α) : Journal ε α := ⟨outcome, []⟩

/-- Reports one event. -/
def note (e : Event) : Journal ε Unit := ⟨.ok (), [e]⟩

/-- Fails. -/
def fail (fault : ε) : Journal ε α := ⟨.error fault, []⟩

/-- Goes on with the value of a computation, or stops at its fault. -/
def andThen (j : Journal ε α) (next : α → Journal ε β) : Journal ε β :=
  match j.outcome with
  | .ok a => ⟨(next a).outcome, j.events ++ (next a).events⟩
  | .error fault => ⟨.error fault, j.events⟩

instance : Monad (Journal ε) where
  pure a := ofExcept (.ok a)
  bind := andThen

/-- The same computation with its fault seen from outside. -/
def mapFault (f : ε → ε') (j : Journal ε α) : Journal ε' α :=
  ⟨j.outcome.mapError f, j.events⟩

/-- An outcome without its fault says as much when there is a value. -/
theorem eq_ok_of_toOption {x : Except ε α} {a : α} (h : x.toOption = some a) : x = .ok a := by
  cases x with
  | error fault => cases h
  | ok b => exact congrArg Except.ok (Option.some.inj h)

/-! ### What each operation does to the outcome and to the events -/

@[simp] theorem outcome_ofExcept (x : Except ε α) : (ofExcept x).outcome = x := rfl

@[simp] theorem events_ofExcept (x : Except ε α) : (ofExcept x).events = [] := rfl

@[simp] theorem outcome_pure (a : α) : (pure a : Journal ε α).outcome = .ok a := rfl

@[simp] theorem events_pure (a : α) : (pure a : Journal ε α).events = [] := rfl

@[simp] theorem outcome_note (e : Event) : (note e : Journal ε Unit).outcome = .ok () := rfl

@[simp] theorem events_note (e : Event) : (note e : Journal ε Unit).events = [e] := rfl

@[simp] theorem outcome_fail (fault : ε) : (fail fault : Journal ε α).outcome = .error fault := rfl

@[simp] theorem events_fail (fault : ε) : (fail fault : Journal ε α).events = [] := rfl

theorem outcome_bind (j : Journal ε α) (next : α → Journal ε β) :
    (j >>= next).outcome = j.outcome.bind fun a => (next a).outcome := by
  show (andThen j next).outcome = _
  rw [andThen]
  cases j.outcome <;> rfl

/-- A computation in two steps has a value exactly if both steps have one. -/
theorem outcome_bind_eq_ok_iff {j : Journal ε α} {next : α → Journal ε β} {b : β} :
    (j >>= next).outcome = .ok b ↔ ∃ a, j.outcome = .ok a ∧ (next a).outcome = .ok b := by
  rw [outcome_bind]
  cases j.outcome <;> simp [Except.bind]

/-- A computation in two steps fails at one of them. -/
theorem outcome_bind_eq_error_iff {j : Journal ε α} {next : α → Journal ε β} {fault : ε} :
    (j >>= next).outcome = .error fault ↔
      j.outcome = .error fault ∨ ∃ a, j.outcome = .ok a ∧ (next a).outcome = .error fault := by
  rw [outcome_bind]
  cases j.outcome <;> simp [Except.bind]

theorem bind_of_ok {j : Journal ε α} {a : α} (h : j.outcome = .ok a) (next : α → Journal ε β) :
    j >>= next = ⟨(next a).outcome, j.events ++ (next a).events⟩ := by
  show andThen j next = _
  rw [andThen, h]

theorem bind_of_error {j : Journal ε α} {fault : ε} (h : j.outcome = .error fault)
    (next : α → Journal ε β) : j >>= next = ⟨.error fault, j.events⟩ := by
  show andThen j next = _
  rw [andThen, h]

/-- A computation whose value is changed has the changed value, and the same fault. -/
theorem outcome_bind_pure (j : Journal ε α) (f : α → β) :
    (j >>= fun a => (pure (f a) : Journal ε β)).outcome = j.outcome.map f := by
  rw [outcome_bind]
  cases j.outcome <;> rfl

/-- What is only done to the value of a computation reports nothing. -/
theorem events_bind_pure (j : Journal ε α) (f : α → β) :
    (j >>= fun a => (pure (f a) : Journal ε β)).events = j.events := by
  show (andThen j _).events = _
  rw [andThen]
  cases j.outcome with
  | ok a => exact List.append_nil _
  | error fault => rfl

theorem pure_bind (a : α) (next : α → Journal ε β) : (pure a : Journal ε α) >>= next = next a := rfl

@[simp] theorem outcome_mapFault (f : ε → ε') (j : Journal ε α) :
    (j.mapFault f).outcome = j.outcome.mapError f := rfl

theorem outcome_mapFault_eq_ok_iff {f : ε → ε'} {j : Journal ε α} {a : α} :
    (j.mapFault f).outcome = .ok a ↔ j.outcome = .ok a := by
  rw [outcome_mapFault]
  cases j.outcome with
  | error fault => exact ⟨nofun, nofun⟩
  | ok b => exact ⟨fun h => congrArg _ (Except.ok.inj h), fun h => congrArg _ (Except.ok.inj h)⟩

@[simp] theorem events_mapFault (f : ε → ε') (j : Journal ε α) :
    (j.mapFault f).events = j.events := rfl

end Journal

end TreeQuery
