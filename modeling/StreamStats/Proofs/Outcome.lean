/-! Steps that may fail, and lists of them: a chain succeeds when all of its steps do. -/

namespace StreamStats

theorem ok_of_bind {ε β γ : Type} {x : Except ε β} {f : β → Except ε γ} {c : γ}
    (h : (x >>= f) = .ok c) : ∃ b, x = .ok b ∧ f b = .ok c := by
  cases x with
  | error e => cases h
  | ok b => exact ⟨b, rfl, h⟩

theorem refuse_bind_eq_ok_iff {ε β : Type} {p : Prop} [Decidable p] {e : ε} {x : Except ε β}
    {b : β} :
    (if p then (throw e : Except ε PUnit) >>= fun _ => x else x) = .ok b ↔ ¬p ∧ x = .ok b := by
  split
  · rename_i hp
    simp only [hp, not_true, false_and, iff_false]
    exact nofun
  · rename_i hp
    rw [and_iff_right hp]

theorem forM_eq_ok_iff {ε β : Type} {f : β → Except ε Unit} {xs : List β} :
    xs.forM f = .ok () ↔ ∀ x ∈ xs, f x = .ok () := by
  induction xs with
  | nil => simp [List.forM, pure, Except.pure]
  | cons x xs ih =>
    rw [List.forall_mem_cons, ← ih]
    constructor
    · intro h
      obtain ⟨⟨⟩, hx, hr⟩ := ok_of_bind h
      exact ⟨hx, hr⟩
    · rintro ⟨hx, hr⟩
      show (f x >>= fun _ => xs.forM f) = .ok ()
      rw [hx]
      exact hr

theorem mapM_eq_some_map {β γ : Type} {f : β → Option γ} {g : β → γ} {xs : List β}
    (h : ∀ x ∈ xs, f x = some (g x)) : xs.mapM f = some (xs.map g) := by
  induction xs with
  | nil => rfl
  | cons x xs ih =>
    obtain ⟨hx, hxs⟩ := List.forall_mem_cons.mp h
    simp [List.mapM_cons, hx, ih hxs]

end StreamStats
