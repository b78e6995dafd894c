import Mathlib.Data.List.Forall2
import Mathlib.Data.List.Nodup

/-! Lists that correspond item by item, and actions for all items of one list and all keys of
another. -/

namespace StreamStats

section Forall₂

variable {β γ : Type} {R P : β → γ → Prop} {l : List β} {l' : List γ}

theorem forall₂_map_self {f : β → γ} (h : ∀ b ∈ l, R b (f b)) : List.Forall₂ R l (l.map f) := by
  rw [List.forall₂_map_right_iff, List.forall₂_same]
  exact h

theorem forall₂_imp_of_mem (h : List.Forall₂ R l l') (hrp : ∀ b ∈ l, ∀ c, R b c → P b c) :
    List.Forall₂ P l l' := by
  induction h with
  | nil => exact .nil
  | cons hb _ ih =>
    obtain ⟨h₁, h₂⟩ := List.forall_mem_cons.mp hrp
    exact .cons (h₁ _ hb) (ih h₂)

theorem forall₂_exists_of_mem (h : List.Forall₂ R l l') :
    (∀ b ∈ l, ∃ c ∈ l', R b c) ∧ ∀ c ∈ l', ∃ b ∈ l, R b c := by
  induction h with
  | nil => simp
  | cons hb _ ih =>
    refine ⟨List.forall_mem_cons.mpr ⟨⟨_, List.mem_cons_self, hb⟩, fun b hm => ?_⟩,
      List.forall_mem_cons.mpr ⟨⟨_, List.mem_cons_self, hb⟩, fun c hm => ?_⟩⟩
    · obtain ⟨c, hc, hr⟩ := ih.1 b hm
      exact ⟨c, List.mem_cons_of_mem _ hc, hr⟩
    · obtain ⟨b, hb, hr⟩ := ih.2 c hm
      exact ⟨b, List.mem_cons_of_mem _ hb, hr⟩

theorem forall₂_of_mapM_eq_some {f : β → Option γ} : ∀ {l' : List γ}, l.mapM f = some l' →
    List.Forall₂ (fun b c => f b = some c) l l' := by
  induction l with
  | nil =>
    intro l' h
    cases h
    exact .nil
  | cons b l ih =>
    intro l' h
    rw [List.mapM_cons] at h
    obtain ⟨c, hc, h⟩ := Option.bind_eq_some_iff.mp h
    obtain ⟨cs, hcs, h⟩ := Option.bind_eq_some_iff.mp h
    cases h
    exact .cons hc (ih hcs)

theorem forall₂_set {R : β → β → Prop} (h : ∀ b ∈ l, R b b) {i : Nat} {b c : β}
    (hb : l[i]? = some b) (hc : R b c) :
    List.Forall₂ R l (l.set i c) := by
  rw [List.forall₂_iff_get]
  refine ⟨by simp, fun j hj hj' => ?_⟩
  simp only [List.get_eq_getElem, List.getElem_set]
  split
  · rename_i hij
    subst hij
    have : l[i] = b := Option.some.inj ((List.getElem?_eq_getElem hj).symm.trans hb)
    exact this ▸ hc
  · exact h _ (List.getElem_mem hj)

theorem forall₂_modify_self {R : β → β → Prop} (h : ∀ b ∈ l, R b b) {i : Nat} {f : β → β}
    (hf : ∀ b, l[i]? = some b → R b (f b)) : List.Forall₂ R l (l.modify i f) := by
  induction l generalizing i with
  | nil => simp
  | cons b l ih =>
    obtain ⟨hb, hl⟩ := List.forall_mem_cons.mp h
    cases i with
    | zero => exact .cons (hf b rfl) (List.forall₂_same.mpr hl)
    | succ i => exact .cons hb (ih hl fun c hc => hf c hc)

theorem forall₂_modify (h : List.Forall₂ R l l') (i : Nat) {f : β → β} {g : γ → γ}
    (hfg : ∀ b c, R b c → R (f b) (g c)) : List.Forall₂ R (l.modify i f) (l'.modify i g) := by
  induction h generalizing i with
  | nil => simp
  | cons hb h ih =>
    cases i with
    | zero => exact .cons (hfg _ _ hb) h
    | succ i => exact .cons hb (ih i)

theorem forall₂_getElem? (h : List.Forall₂ R l l') (i : Nat) :
    List.Forall₂ R l[i]?.toList l'[i]?.toList := by
  induction h generalizing i with
  | nil => simp
  | cons hb _ ih =>
    cases i with
    | zero => exact .cons hb .nil
    | succ i => exact ih i

end Forall₂

@[simp] theorem drop_cons_of_ne_zero {β : Type} {n : Nat} (hn : n ≠ 0) (b : β) (l : List β) :
    (b :: l).drop n = l.drop (n - 1) := by
  obtain ⟨k, rfl⟩ := Nat.exists_eq_succ_of_ne_zero hn
  rfl

theorem foldl_comm {σ ι : Type} {f : σ → σ} {g : σ → ι → σ} {items : List ι}
    (h : ∀ i ∈ items, ∀ s, f (g s i) = g (f s) i) (s : σ) :
    f (items.foldl g s) = items.foldl g (f s) := by
  induction items generalizing s with
  | nil => rfl
  | cons i items ih =>
    rw [List.foldl_cons, List.foldl_cons, ih fun j hj => h j (List.mem_cons_of_mem _ hj),
      h i List.mem_cons_self]

/-- Actions for every item and every key may be taken item by item or key by key, if those commute
whose order that changes. -/
theorem foldl_interchange {σ ι κ : Type} {act : σ → ι → κ → σ} {items : List ι} {keys : List κ}
    (h : items.Pairwise fun i i' => keys.Pairwise fun k k' =>
      ∀ s, act (act s i' k) i k' = act (act s i k') i' k) (s : σ) :
    items.foldl (fun s i => keys.foldl (fun s k => act s i k) s) s =
      keys.foldl (fun s k => items.foldl (fun s i => act s i k) s) s := by
  induction items generalizing s with
  | nil =>
    show s = keys.foldl (fun s _ => s) s
    induction keys with
    | nil => rfl
    | cons k keys ih => exact ih (by simp)
  | cons i items ih =>
    obtain ⟨hi, hitems⟩ := List.pairwise_cons.mp h
    rw [List.foldl_cons, ih hitems]
    simp only [List.foldl_cons]
    clear ih hitems h
    induction keys generalizing s with
    | nil => rfl
    | cons k keys ihk =>
      -- the first item at the later keys moves past all other items at this one
      have hmove : ∀ s, items.foldl
        (fun s i' => act s i' k) (keys.foldl (fun s k' => act s i k') s) =
          keys.foldl (fun s k' => act s i k') (items.foldl (fun s i' => act s i' k) s) := by
        refine foldl_comm (f := fun s => items.foldl (fun s i' => act s i' k) s) fun k' hk' s => ?_
        refine (foldl_comm (f := fun s => act s i k') (fun i' hi' s => ?_) s).symm
        exact (List.pairwise_cons.mp (hi i' hi')).1 k' hk' s
      rw [List.foldl_cons, List.foldl_cons, List.foldl_cons, hmove]
      exact ihk _ fun i' hi' => (List.pairwise_cons.mp (hi i' hi')).2

end StreamStats
