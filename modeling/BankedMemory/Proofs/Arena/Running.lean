import BankedMemory.Arena.Basic

/-!
# Running programs

What a program does is followed from front to back: `bind_of_ok` goes past a step that succeeds,
`bind_of_error` stops at one that fails. On an arena the lemmas on `reading` and `orUndo` do the
same for the two ways a step is built.
-/

namespace BankedMemory

theorem bind_eq_of_ok {α β : Type} {m : Except Fault α} {k : α → Except Fault β} {x : α}
    (h : m = .ok x) : (m >>= k) = k x := by
  rw [h]; rfl

theorem bind_eq_of_error {α β : Type} {m : Except Fault α} {k : α → Except Fault β} {e : Fault}
    (h : m = .error e) : (m >>= k) = .error e := by
  rw [h]; rfl

/-- A program that gives a result has done its first step. -/
theorem exists_of_bind_ok {α β : Type} {m : Except Fault α} {k : α → Except Fault β} {y : β}
    (h : (m >>= k) = .ok y) : ∃ x, m = .ok x ∧ k x = .ok y := by
  cases hm : m with
  | error e =>
    rw [bind_eq_of_error hm] at h
    cases h
  | ok x =>
    rw [bind_eq_of_ok hm] at h
    exact ⟨x, rfl, h⟩

namespace EStateM

variable {ε σ α β : Type} {m : EStateM ε σ α} {k : α → EStateM ε σ β} {s s' : σ} {x : α} {e : ε}

theorem bind_of_ok (h : m s = .ok x s') : (m >>= k) s = k x s' := by
  change EStateM.bind m k s = k x s'
  unfold EStateM.bind; rw [h]

theorem bind_of_error (h : m s = .error e s') : (m >>= k) s = .error e s' := by
  change EStateM.bind m k s = .error e s'
  unfold EStateM.bind; rw [h]

/-- A program that gives a result has done its first step. -/
theorem exists_of_bind_ok {y : β} {s'' : σ} (h : (m >>= k) s = .ok y s'') :
    ∃ x s', m s = .ok x s' ∧ k x s' = .ok y s'' := by
  cases hm : m s with
  | ok x s' =>
    rw [bind_of_ok hm] at h
    exact ⟨x, s', rfl, h⟩
  | error e s' =>
    rw [bind_of_error hm] at h
    cases h

theorem exists_of_map_ok {f : α → β} {y : β} (h : (f <$> m) s = .ok y s') :
    ∃ x, m s = .ok x s' ∧ f x = y := by
  cases hm : m s with
  | ok x s'' =>
    change EStateM.map f m s = .ok y s' at h
    unfold EStateM.map at h
    rw [hm] at h
    cases h
    exact ⟨x, rfl, rfl⟩
  | error e s'' =>
    change EStateM.map f m s = .ok y s' at h
    unfold EStateM.map at h
    rw [hm] at h
    cases h

/-- A program that gives a result has passed its checks. -/
theorem of_refuse_ok {c : Prop} [Decidable c] {go : Unit → EStateM ε σ α}
    (h : (if c then MonadExcept.throw e >>= go else go ()) s = .ok x s') :
    ¬c ∧ go () s = .ok x s' := by
  split at h
  · cases h
  · next hc => exact ⟨hc, h⟩

theorem map_of_ok {f : α → β} (h : m s = .ok x s') : (f <$> m) s = .ok (f x) s' := by
  change EStateM.map f m s = .ok (f x) s'
  unfold EStateM.map; rw [h]

theorem map_of_error {f : α → β} (h : m s = .error e s') : (f <$> m) s = .error e s' := by
  change EStateM.map f m s = .error e s'
  unfold EStateM.map; rw [h]

end EStateM

namespace ArenaM

variable {α β : Type} {k : α → ArenaM β} {a a' a'' : Arena} {x : α} {e e' : Fault}

variable {f : Arena → Except Fault α}

theorem reading_of_ok (h : f a = .ok x) : reading f a = .ok x a := by
  unfold reading; rw [h]

theorem reading_of_error (h : f a = .error e) : reading f a = .error e a := by
  unfold reading; rw [h]

theorem reading_bind (h : f a = .ok x) : (reading f >>= k) a = k x a :=
  EStateM.bind_of_ok (reading_of_ok h)

/-- A program that looks at the arena first and fails does so on what it saw, or the look fails. -/
theorem exists_of_reading_bind_error (h : (reading f >>= k) a = .error e a') :
    (∃ x, f a = .ok x ∧ k x a = .error e a') ∨ f a = .error e ∧ a' = a := by
  cases hf : f a with
  | ok x =>
    rw [reading_bind hf] at h
    exact .inl ⟨x, rfl, h⟩
  | error e' =>
    rw [EStateM.bind_of_error (reading_of_error hf)] at h
    cases h
    exact .inr ⟨rfl, rfl⟩

variable {act : ArenaM α} {undo : ArenaM Unit}

theorem orUndo_of_ok (h : act a = .ok x a') : act.orUndo undo a = .ok x a' := by
  unfold orUndo; rw [h]

theorem orUndo_of_stop (h : act a = .error e a') (hstop : e.stops) :
    act.orUndo undo a = .error e a' := by
  unfold orUndo; rw [h]; exact if_pos hstop

theorem orUndo_of_error (h : act a = .error e a') (hgoes : ¬e.stops) (hu : undo a' = .ok () a'') :
    act.orUndo undo a = .error e a'' := by
  unfold orUndo; rw [h]; simp only; rw [if_neg hgoes, hu]

end ArenaM

end BankedMemory
