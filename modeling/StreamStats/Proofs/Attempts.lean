import StreamStats.Pass

/-! Steps that succeed. What holds after a step is put together from what holds after its parts. -/

namespace ExceptT

open StreamStats

section General

variable {ε σ β γ : Type} {x : ExceptT ε (StateM σ) β} {s : σ} {Q : β → σ → Prop}

theorem run_bind_state (x : ExceptT ε (StateM σ) β) (f : β → ExceptT ε (StateM σ) γ) (s : σ) :
    (x >>= f).run s =
    match (x.run s).1 with
    | .ok b => (f b).run (x.run s).2
    | .error e => (.error e, (x.run s).2) := by
  have hrun : (x >>= f).run s = (ExceptT.bindCont f (x.run s).1).run (x.run s).2 := rfl
  rw [hrun]
  cases (x.run s).1 <;> rfl

theorem run_bind_of_ok {b : β} {s' : σ} (h : x.run s = (.ok b, s'))
    (f : β → ExceptT ε (StateM σ) γ) :
    (x >>= f).run s = (f b).run s' := by
  rw [run_bind_state, h]

theorem run_bind_of_error {e : ε} {s' : σ} (h : x.run s = (.error e, s'))
    (f : β → ExceptT ε (StateM σ) γ) :
    (x >>= f).run s = (.error e, s') := by
  rw [run_bind_state, h]

@[simp] theorem run_get : (get : ExceptT ε (StateM σ) σ).run s = (.ok s, s) := rfl

@[simp] theorem run_modify (f : σ → σ) :
    (modify f : ExceptT ε (StateM σ) PUnit).run s = (.ok ⟨⟩, f s) := rfl

/-- From a state the step succeeds, and this holds of its result and of the state that it leaves. -/
def Succeeds (x : ExceptT ε (StateM σ) β) (s : σ) (Q : β → σ → Prop) : Prop :=
  ∃ b s', x.run s = (.ok b, s') ∧ Q b s'

theorem Succeeds.imp {Q' : β → σ → Prop} (h : x.Succeeds s Q) (hQ : ∀ b s, Q b s → Q' b s) :
    x.Succeeds s Q' := by
  obtain ⟨b, s', hx, hb⟩ := h
  exact ⟨b, s', hx, hQ b s' hb⟩

theorem Succeeds.bind {f : β → ExceptT ε (StateM σ) γ} {Q : γ → σ → Prop}
    (h : x.Succeeds s fun b s' => (f b).Succeeds s' Q) : (x >>= f).Succeeds s Q := by
  obtain ⟨b, s', hx, c, s'', hc, hQ⟩ := h
  exact ⟨c, s'', (run_bind_of_ok hx f).trans hc, hQ⟩

theorem run_of_succeeds {b : β} {s' : σ} (h : x.Succeeds s fun c t => c = b ∧ t = s') : x.run s =
    (.ok b, s') := by
  obtain ⟨c, t, hx, rfl, rfl⟩ := h
  exact hx

theorem succeeds_pure {b : β} (h : Q b s) : Succeeds (pure b : ExceptT ε (StateM σ) β) s Q :=
  ⟨b, s, rfl, h⟩

theorem succeeds_get {Q : σ → σ → Prop} (h : Q s s) : Succeeds (get : ExceptT ε (StateM σ) σ) s Q :=
  ⟨s, s, rfl, h⟩

theorem succeeds_set {s' : σ} {Q : PUnit → σ → Prop} (h : Q ⟨⟩ s') :
    Succeeds (set s' : ExceptT ε (StateM σ) PUnit) s Q := ⟨⟨⟩, s', rfl, h⟩

theorem succeeds_modify {f : σ → σ} {Q : PUnit → σ → Prop} (h : Q ⟨⟩ (f s)) :
    Succeeds (modify f : ExceptT ε (StateM σ) PUnit) s Q := ⟨⟨⟩, f s, rfl, h⟩

theorem succeeds_mapM {ι : Type} {f : ι → ExceptT ε (StateM σ) β} {g : ι → β} {items : List ι}
    {Q : List β → σ → Prop} (hf : ∀ i ∈ items, (f i).run s = (.ok (g i), s))
    (h : Q (items.map g) s) : (items.mapM f).Succeeds s Q := by
  induction items generalizing Q with
  | nil => exact succeeds_pure h
  | cons i items ih =>
    obtain ⟨hi, hitems⟩ := List.forall_mem_cons.mp hf
    rw [List.mapM_cons]
    exact .bind ⟨_, _, hi, .bind (ih hitems (succeeds_pure h))⟩

end General

variable {σ τ β : Type} {x : Attempt σ β} {s : σ} {Q : β → σ → Prop}

theorem succeeds_ofExcept {r : Except OptimizerError β} {b : β} (hr : r = .ok b) (h : Q b s) :
    (Attempt.ofExcept r).Succeeds s Q := ⟨b, s, by rw [hr]; rfl, h⟩

theorem Succeeds.outcome {Q : Except OptimizerError β → σ → Prop}
    (h : x.Succeeds s fun b s' => Q (.ok b) s') :
    x.outcome.Succeeds s Q := by
  obtain ⟨b, s', hx, hb⟩ := h
  refine ⟨.ok b, s', ?_, hb⟩
  show (Except.ok (x.run s).1, (x.run s).2) = _
  rw [hx]

theorem Succeeds.on {get : τ → σ} {put : σ → τ → τ} {t : τ} {Q : β → τ → Prop}
    (h : x.Succeeds (get t) fun b s' => Q b (put s' t)) : (x.on get put).Succeeds t Q := by
  obtain ⟨b, s', hx, hb⟩ := h
  refine ⟨b, put s' t, ?_, hb⟩
  show ((x.run (get t)).1, put (x.run (get t)).2 t) = _
  rw [hx]

theorem Succeeds.onSnd {t : τ × σ} {Q : β → τ × σ → Prop}
    (h : x.Succeeds t.2 fun b s' => Q b (t.1, s')) :
    Succeeds (x.onSnd : Attempt (τ × σ) β) t Q := h.on

theorem Succeeds.within {x : Attempt (τ × σ) β} {t : τ} {Q : Except OptimizerError β × τ → σ → Prop}
    (h : x.Succeeds (t, s) fun b s' => Q (.ok b, s'.1) s'.2) : (x.within t).Succeeds s Q := by
  obtain ⟨b, s', hx, hb⟩ := h
  refine ⟨(.ok b, s'.1), s'.2, ?_, hb⟩
  show (Except.ok ((x.run (t, s)).1, (x.run (t, s)).2.1), (x.run (t, s)).2.2) = _
  rw [hx]

end ExceptT
