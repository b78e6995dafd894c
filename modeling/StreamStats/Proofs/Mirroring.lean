import StreamStats.Proofs.Renaming

/-! Runs side by side. Code under other names of its registers fails where the code fails and leaves
the memory that the code leaves, from whatever memory the two start; where less is asked, only a run
that ends is to be matched. -/

namespace StreamStats

variable {α : Type}

/-- How alike two runs are to be. -/
structure Likeness (α : Type) where
  /-- A run that fails is to be matched, too. -/
  strict : Prop
  faults : Fault → Fault → Prop
  /-- The memories that are looked at. -/
  memories : Memory α → Prop
  faults_refl : ∀ e, faults e e

namespace Exec

variable {β γ β' γ' : Type} {like : Likeness α}

/-- Two runs end in one memory, both well or both not. -/
inductive Mirrors (like : Likeness α) (P : β → γ → Prop) :
    EStateM.Result Fault (Memory α) β → EStateM.Result Fault (Memory α) γ → Prop where
  | ok {b : β} {c : γ} {m : Memory α} (value : P b c) (memory : like.memories m) :
      Mirrors like P (.ok b m) (.ok c m)
  | error {e e' : Fault} {m : Memory α} (fault : like.faults e e') (memory : like.memories m) :
      Mirrors like P (.error e m) (.error e' m)
  | lax {e : Fault} {m : Memory α} {r : EStateM.Result Fault (Memory α) γ} (h : ¬like.strict) :
      Mirrors like P (.error e m) r

def final : EStateM.Result Fault (Memory α) β → Memory α
  | .ok _ m | .error _ m => m

theorem final_bind_pure (x : Exec α β) (f : β → γ) {m : Memory α} :
    final ((x >>= fun b => pure (f b)) m) = final (x m) := by
  cases hx : x m with
  | ok b m' => rw [bind_of_ok hx, pure_apply, final, final]
  | error e m' => rw [bind_of_error hx, final, final]

namespace Mirrors

variable {P : β → γ → Prop} {m : Memory α}

theorem refl {r : EStateM.Result Fault (Memory α) β} (h : like.memories (final r)) :
    Mirrors like Eq r r := by
  cases r with
  | ok b m => exact .ok rfl h
  | error e m => exact .error (like.faults_refl e) h

theorem imp {Q : β → γ → Prop} {r : EStateM.Result Fault (Memory α) β}
    {r' : EStateM.Result Fault (Memory α) γ} (h : Mirrors like P r r')
    (hpq : ∀ b c, P b c → Q b c) : Mirrors like Q r r' := by
  cases h with
  | ok value memory => exact .ok (hpq _ _ value) memory
  | error fault memory => exact .error fault memory
  | lax h => exact .lax h

theorem bind {Q : β' → γ' → Prop} {x : Exec α β} {y : Exec α γ} {f : β → Exec α β'}
    {g : γ → Exec α γ'} (h : Mirrors like P (x m) (y m))
    (hf : ∀ b c m', P b c → like.memories m' → Mirrors like Q (f b m') (g c m')) :
    Mirrors like Q ((x >>= f) m) ((y >>= g) m) := by
  generalize hx : x m = r, hy : y m = r' at h
  cases h with
  | ok value memory =>
    rw [bind_of_ok hx, bind_of_ok hy]
    exact hf _ _ _ value memory
  | error fault memory =>
    rw [bind_of_error hx, bind_of_error hy]
    exact .error fault memory
  | lax h =>
    rw [bind_of_error hx]
    exact .lax h

theorem both {Q : β → Prop} {R : γ → Prop} {x : Exec α β} {y : Exec α γ}
    (h : Mirrors like P (x m) (y m)) (hx : After (fun b _ => Q b) x m)
    (hy : After (fun c _ => R c) y m) :
    Mirrors like (fun b c => P b c ∧ Q b ∧ R c) (x m) (y m) := by
  generalize hr : x m = r, hr' : y m = r' at h
  cases h with
  | ok value memory => exact .ok ⟨value, hx _ _ hr, hy _ _ hr'⟩ memory
  | error fault memory => exact .error fault memory
  | lax h => exact .lax h

theorem iterate {f : Nat → β → Exec α β} {g : Nat → γ → Exec α γ} {step : Nat}
    (hf : ∀ count b c m, P b c → like.memories m → Mirrors like P (f count b m) (g count c m))
    (n : Nat) :
    ∀ (count : Nat) {b : β} {c : γ} {m : Memory α}, P b c → like.memories m →
      Mirrors like P (Exec.iterate f step n count b m) (Exec.iterate g step n count c m) := by
  induction n with
  | zero => exact fun _ _ _ _ h hm => .ok h hm
  | succ n ih =>
    intro count b c m h hm
    exact (hf count b c m h hm).bind fun b' c' m' h' hm' => ih (count + step) h' hm'

end Mirrors

/-- Calls of one name do alike. -/
def CallsMirror (like : Likeness α) (call call' : String → Exec α Unit) : Prop :=
  ∀ name m, like.memories m → Mirrors like (fun _ _ => True) (call name m) (call' name m)

section Memory

variable {K : Memory α → Prop} {dst : Address} {count : Nat} {m : Memory α}

theorem storeFrom_keeps (hk : ∀ m i v, K m → K (m.write dst.segment i v)) (values : List α) :
    ∀ (lane : Nat) {m : Memory α}, K m → K (final (storeFrom dst count lane values m)) := by
  induction values with
  | nil => exact fun _ _ hm => hm
  | cons v values ih =>
    intro lane m hm
    simp only [storeFrom]
    by_cases h : 0 ≤ dst.index count lane ∧ dst.index count lane < m.sizeOf dst.segment
    · rw [bind_of_ok (storeLane_of_holds h v)]
      exact ih (lane + 1) (hk m _ v hm)
    · rw [bind_of_error (storeLane_of_not_holds h v)]
      exact hm

/-- What single writes keep, a store keeps, whether it succeeds or not. -/
theorem store_keeps (hk : ∀ m i v, K m → K (m.write dst.segment i v)) (hm : K m) (lanes : Nat)
    (values : List α) :
    K (final (store dst count lanes values m)) := by
  by_cases h : values.length = 1 ∨ values.length = lanes
  · rw [store_eq_storeFrom h]
    exact storeFrom_keeps hk _ 0 hm
  · rw [store_of_mismatch h]
    exact hm

theorem final_readLanes [Scalar α] (src : Address) (n : Nat) : ∀ (lane : Nat) (values : Array α),
    final (Exec.iterate (fun lane values => return values.push (← lift (m.read src count lane))) 1 n
      lane values m) =
      m := by
  induction n with
  | zero => exact fun _ _ => rfl
  | succ n ih =>
    intro lane values
    simp only [Exec.iterate]
    by_cases h : 0 ≤ src.index count lane ∧ src.index count lane < m.sizeOf src.segment
    · rw [bind_of_ok (readLane_of_holds h values)]
      exact ih _ _
    · rw [bind_of_error (readLane_of_not_holds h values)]
      rfl

@[simp] theorem final_load [Scalar α] (src : Address) (lanes : Nat) :
    final (load src count lanes m) = m :=
  (final_bind_pure _ _).trans (final_readLanes src lanes 0 #[])

end Memory
end Exec

open Exec

def Inst.Keeps (K : Memory α → Prop) (_ : Option Check.Shape) : Inst α → Prop
  | .store dst _ _ => ∀ m i v, K m → K (m.write dst.segment i v)
  | _ => True

section Renamed

variable {like : Likeness α} {call call' : String → Exec α Unit} {name name' : String}
    {φ : Reg → Reg}

theorem Frame.Renames.mirrors_read {V : Set Reg} {f g : Frame α} (h : Frame.Renames φ V f g)
    (he : ∀ r, like.faults (.undefinedRegister name r) (.undefinedRegister name' (φ r)))
    {x : Operand α} (hx : x.Reads V) {m : Memory α} (hm : like.memories m) :
    Mirrors like Eq (lift (f.read name x) m) (lift (g.read name' (x.rename φ)) m) := by
  cases x with
  | imm v => exact .ok rfl hm
  | reg r =>
    have hr : g.get? (φ r) = f.get? r := h r hx
    simp only [Operand.rename, Frame.read, hr]
    cases f.get? r with
    | none => exact .error (he r) hm
    | some xs => exact .ok rfl hm

variable [Scalar α]

mutual

theorem Inst.mirrors_rename (hcall : CallsMirror like call call')
    (he : ∀ r, like.faults (.undefinedRegister name r) (.undefinedRegister name' (φ r))) :
    ∀ {inst : Inst α} {shape : Option Check.Shape} {V : Set Reg} {count : Nat} {f g : Frame α}
      {m : Memory α}, inst.Each (Inst.Keeps like.memories) shape → inst.Scoped false V →
      (∀ r, r ∈ V ∨ r ∈ inst.targets → ∀ t ∈ inst.targets, φ r = φ t → r = t) →
      Frame.Renames φ V f g → like.memories m →
      Mirrors like (Frame.Renames φ (inst.define V)) (inst.exec call name count f m)
        ((inst.rename φ).exec call' name' count g m)
  | .load dst src n, shape, V, count, f, g, m, _, _, hφ, hf, hm => by
    have hload : like.memories (final (Exec.load src count n m)) := by rwa [final_load]
    simp only [Inst.rename, Inst.exec]
    refine (Mirrors.refl hload).bind ?_
    rintro xs _ m' rfl hm'
    exact .ok (hf.set (fun r hr => hφ r (Or.inl hr) dst (by simp [Inst.targets])) xs) hm'
  | .store dst x n, shape, V, count, f, g, m, hk, hs, _, hf, hm => by
    simp only [Inst.rename, Inst.exec]
    refine (hf.mirrors_read he hs hm).bind ?_
    rintro xs _ m' rfl hm'
    refine (Mirrors.refl (store_keeps hk hm' n xs)).bind ?_
    rintro _ _ m'' - hm''
    refine .ok ?_ hm''
    rintro r (hr | hr)
    · exact hf r hr
    · cases hr
  | .binary dst op x y, shape, V, count, f, g, m, _, hs, hφ, hf, hm => by
    simp only [Inst.rename, Inst.exec]
    refine (hf.mirrors_read he hs.1 hm).bind ?_
    rintro xs _ m' rfl hm'
    refine (hf.mirrors_read he hs.2 hm').bind ?_
    rintro ys _ m'' rfl hm''
    have hlanes : like.memories (final (lift (op.lanes xs ys) m'')) := by
      cases op.lanes xs ys <;> exact hm''
    refine (Mirrors.refl hlanes).bind ?_
    rintro zs _ m₃ rfl hm₃
    exact .ok (hf.set (fun r hr => hφ r (Or.inl hr) dst (by simp [Inst.targets])) zs) hm₃
  | .call callee, shape, V, count, f, g, m, _, _, _, hf, hm => by
    simp only [Inst.rename, Inst.exec]
    refine (hcall callee m hm).bind ?_
    rintro _ _ m' - hm'
    refine .ok ?_ hm'
    rintro r (hr | hr)
    · exact hf r hr
    · cases hr
  | .loop trips step parallel body, shape, V, count, f, g, m, hk, hs, hφ, hf, hm => by
    have hs : Block.Scoped false V body := by simpa [Inst.Scoped] using hs
    rw [Inst.rename, Inst.exec_loop, Inst.exec_loop]
    -- what a round sets is not in scope in the next
    refine (Mirrors.iterate (P := Frame.Renames φ V) (fun count f g m hf hm => ?_) _ 0 hf hm).imp ?_
    · exact (Block.mirrors_rename hcall he hk.2 hs hφ hf hm).imp fun f' g' hf' r hr =>
        hf' r (Block.subset_define body V hr)
    · rintro f' g' hf' r (hr | hr)
      · exact hf' r hr
      · cases hr

/-- Code under other names of its registers does as the code does, where the two start from like
frames. -/
theorem Block.mirrors_rename (hcall : CallsMirror like call call')
    (he : ∀ r, like.faults (.undefinedRegister name r) (.undefinedRegister name' (φ r))) :
    ∀ {body : List (Inst α)} {shape : Option Check.Shape} {V : Set Reg} {count : Nat}
      {f g : Frame α} {m : Memory α},
      Block.Each (Inst.Keeps like.memories) shape body → Block.Scoped false V body →
      (∀ r, r ∈ V ∨ r ∈ Block.targets body → ∀ t ∈ Block.targets body, φ r = φ t → r = t) →
      Frame.Renames φ V f g → like.memories m →
      Mirrors like (Frame.Renames φ (Block.define body V)) (Block.exec call name count body f m)
        (Block.exec call' name' count (Block.rename φ body) g m)
  | [], _, _, _, _, _, _, _, _, _, hf, hm => .ok hf hm
  | inst :: rest, shape, V, count, f, g, m, hk, hs, hφ, hf, hm => by
    simp only [Block.exec, Block.rename]
    refine (Inst.mirrors_rename hcall he hk.1 hs.1 (fun r hr t ht => hφ r
      (hr.imp_right (List.mem_append_left _)) t (List.mem_append_left _ ht)) hf hm).bind ?_
    intro f' g' m' hf' hm'
    refine Block.mirrors_rename hcall he hk.2 hs.2
      (fun r hr t ht => hφ r ?_ t (List.mem_append_right _ ht)) hf' hm'
    rcases hr with (hr | hr) | hr
    · exact Or.inl hr
    · exact Or.inr (List.mem_append_left _ (Inst.mem_targets_of_target? hr))
    · exact Or.inr (List.mem_append_right _ hr)

end

end Renamed
end StreamStats
