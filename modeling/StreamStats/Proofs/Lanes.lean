import StreamStats.Proofs.Lawful
import StreamStats.Proofs.Lists
import StreamStats.Proofs.Thinning

/-! Straight-line code on many counts at once. Each instruction at each count is one action on the
values of all counts and on memory. Taking the counts one after another, or the instructions, are
two orders of the same actions; they lead to the same end if no action is moved past another that it
is in conflict with. -/

namespace StreamStats

variable {α : Type}

def Operand.eval (v : Reg → α) : Operand α → α
  | reg r => v r
  | imm value => value

/-- The values of the registers at every count, and one memory. -/
structure Lanes (α : Type) where
  values : Nat → Reg → α
  memory : Memory α

namespace Lanes

def set (s : Lanes α) (k : Nat) (r : Reg) (value : α) : Lanes α :=
  { s with values := fun k' r' => if k' = k ∧ r' = r then value else s.values k' r' }

@[simp] theorem memory_set (s : Lanes α) (k : Nat) (r : Reg) (value : α) :
    (s.set k r value).memory = s.memory :=
  rfl

@[simp] theorem values_set_of_ne (s : Lanes α) {k k' : Nat} (h : k' ≠ k) (r : Reg) (value : α) :
    (s.set k r value).values k' = s.values k' := by
  funext r'
  simp [set, h]

theorem set_comm (s : Lanes α) {k k' : Nat} (h : k ≠ k') (r r' : Reg) (value value' : α) :
    (s.set k r value).set k' r' value' = (s.set k' r' value').set k r value := by
  simp only [set, mk.injEq, and_true]
  funext j q
  by_cases hj : j = k
  · subst hj
    simp [h]
  · simp [hj]

end Lanes

namespace Inst

variable [Scalar α]

def value (s : Lanes α) (k : Nat) : Inst α → α
  | .load _ src _ => s.memory.valueAt src k 0
  | .store _ x _ => x.eval (s.values k)
  | .binary _ op x y => op.apply (x.eval (s.values k)) (y.eval (s.values k))
  | .call _ | .loop _ _ _ _ => 0

def access? : Inst α → Option (Address × Nat)
  | .load _ a n | .store a _ n => some (a, n)
  | _ => none

/-- The place in memory that an instruction goes to at a count. -/
def place? (k : Nat) (inst : Inst α) : Option (Nat × Nat) :=
  inst.access?.map fun a => (a.1.segment, (a.1.index k 0).toNat)

def isStore : Inst α → Bool
  | .store _ _ _ => true
  | _ => false

/-- What an instruction does at a count, with single lanes. -/
def act (s : Lanes α) (inst : Inst α) (k : Nat) : Lanes α :=
  match inst with
  | .load dst _ _ | .binary dst _ _ _ => s.set k dst (inst.value s k)
  | .store dst _ _ =>
    { s with memory := s.memory.write dst.segment (dst.index k 0).toNat (inst.value s k) }
  | .call _ | .loop _ _ _ _ => s

@[simp] theorem value_set_of_ne (s : Lanes α) {k k' : Nat} (h : k' ≠ k) (r : Reg) (v : α)
    (inst : Inst α) :
    inst.value (s.set k r v) k' = inst.value s k' := by
  cases inst <;> simp [value, Lanes.values_set_of_ne s h]

theorem value_write {s : Lanes α} {seg i k : Nat} (v : α) {inst : Inst α}
    (h : inst.place? k ≠ some (seg, i)) :
    inst.value { s with memory := s.memory.write seg i v } k = inst.value s k := by
  cases inst with
  | load dst src n =>
    refine Memory.value_write_of_ne v ?_
    by_contra hc
    simp only [not_or, not_not] at hc
    exact h (by simp [place?, access?, hc.1, hc.2])
  | _ => rfl

/-- Two instructions, at a count each, do not both go to one place of which one of them is the
writer. -/
def Apart (i : Inst α) (k : Nat) (i' : Inst α) (k' : Nat) : Prop :=
  i.isStore = true ∨ i'.isStore = true → ∀ p, i.place? k = some p → i'.place? k' ≠ some p

theorem act_of_target {inst : Inst α} {dst : Reg} (h : inst.target? = some dst) (s : Lanes α)
    (k : Nat) :
    act s inst k = s.set k dst (inst.value s k) := by
  cases inst <;> cases h <;> rfl

theorem act_comm_of_target {i i' : Inst α} {k k' : Nat} {dst : Reg} (hk : k ≠ k')
    (hi : i.target? = some dst) (h : i.Apart k i' k') (s : Lanes α) :
    act (act s i k) i' k' = act (act s i' k') i k := by
  simp only [act_of_target hi]
  cases hi' : i'.target? with
  | some dst' =>
    simp only [act_of_target hi', value_set_of_ne _ hk.symm, value_set_of_ne _ hk]
    exact Lanes.set_comm s hk _ _ _ _
  | none =>
    cases i' with
    | store dst' x n =>
      have hplace : i.place? k ≠ some (dst'.segment, (dst'.index k' 0).toNat) := fun hp =>
        h (Or.inr rfl) _ hp rfl
      have hx : value (s.set k dst (i.value s k)) k' (.store dst' x n) =
          value s k' (.store dst' x n) := value_set_of_ne _ hk.symm _ _ _
      simp only [act, hx, value_write _ hplace]
      rfl
    | call _ => rfl
    | loop _ _ _ _ => rfl
    | load _ _ _ => cases hi'
    | binary _ _ _ _ => cases hi'

theorem act_comm {i i' : Inst α} {k k' : Nat} (hk : k ≠ k') (h : i.Apart k i' k') (s : Lanes α) :
    act (act s i k) i' k' = act (act s i' k') i k := by
  have hflip : i'.Apart k' i k := fun hw p hp hp' => h hw.symm p hp' hp
  cases hi : i.target? with
  | some dst => exact act_comm_of_target hk hi h s
  | none =>
    cases hi' : i'.target? with
    | some dst' => exact (act_comm_of_target hk.symm hi' hflip s).symm
    | none =>
      cases i with
      | store dst x n =>
        cases i' with
        | store dst' x' n' =>
          have hne : dst.segment ≠ dst'.segment ∨
              (dst.index k 0).toNat ≠ (dst'.index k' 0).toNat := by
            by_contra hc
            simp only [not_or, not_not] at hc
            exact h (Or.inl rfl) _ rfl (by simp [place?, access?, hc.1, hc.2])
          simp only [act, value, Lanes.mk.injEq, true_and]
          exact Memory.write_comm _ _ _ hne
        | call _ => rfl
        | loop _ _ _ _ => rfl
        | load _ _ _ => cases hi'
        | binary _ _ _ _ => cases hi'
      | call _ => rfl
      | loop _ _ _ _ => rfl
      | load _ _ _ => cases hi
      | binary _ _ _ _ => cases hi

end Inst

namespace Block

variable [Scalar α]

/-- All counts go through a block, one after another. -/
def actEach (body : Block α) (ks : List Nat) (s : Lanes α) : Lanes α :=
  ks.foldl (fun s k => body.foldl (fun s inst => inst.act s k) s) s

def actAll (body : Block α) (ks : List Nat) (s : Lanes α) : Lanes α :=
  body.foldl (fun s inst => ks.foldl (fun s k => inst.act s k) s) s

theorem actEach_add (body : Block α) (b n n' : Nat) (s : Lanes α) :
    actEach body (List.range' b (n + n')) s =
      actEach body (List.range' (b + n) n') (actEach body (List.range' b n) s) := by
  rw [← List.range'_append_1, actEach, List.foldl_append]
  rfl

/-- The two orders lead to the same end, if no earlier instruction at a later count is in conflict
with a later instruction at an earlier count. -/
theorem actAll_eq_actEach {body : Block α} {ks : List Nat}
    (h : body.Pairwise fun i i' => ks.Pairwise fun k k' => k ≠ k' ∧ i'.Apart k i k') (s : Lanes α) :
    actAll body ks s = actEach body ks s := by
  refine foldl_interchange (h.imp fun hk => hk.imp fun ⟨hne, hapart⟩ s => ?_) s
  exact Inst.act_comm hne hapart s

end Block

/-- What a register holds when it stands for the values at many counts: one for all, or one for
each. -/
def Spread (ks : List Nat) (xs : List α) (x : Nat → α) : Prop :=
  (∃ v, xs = [v] ∧ ∀ k ∈ ks, x k = v) ∨ xs = ks.map x

namespace Spread

variable {ks : List Nat} {xs ys : List α} {x y : Nat → α}

theorem congr (h : Spread ks xs x) (hxy : ∀ k ∈ ks, x k = y k) : Spread ks xs y := by
  rcases h with ⟨v, rfl, hv⟩ | rfl
  · exact Or.inl ⟨v, rfl, fun k hk => (hxy k hk).symm.trans (hv k hk)⟩
  · exact Or.inr (List.map_congr_left hxy)

theorem length_eq (h : Spread ks xs x) : xs.length = 1 ∨ xs.length = ks.length := by
  rcases h with ⟨v, rfl, -⟩ | rfl
  · exact Or.inl rfl
  · exact Or.inr (by simp)

theorem stretch_eq (h : Spread ks xs x) : stretch ks.length xs = ks.map x := by
  rcases h with ⟨v, rfl, hv⟩ | rfl
  · rw [List.map_congr_left hv, List.map_const']
    rfl
  · match ks with
    | [] => rfl
    | [_] => rfl
    | _ :: _ :: _ => rfl

theorem lanes [Scalar α] (hx : Spread ks xs x) (hy : Spread ks ys y) (op : Arith) :
    ∃ zs, op.lanes xs ys = .ok zs ∧ Spread ks zs fun k => op.apply (x k) (y k) := by
  rcases hx with ⟨v, rfl, hv⟩ | rfl
  · rw [Arith.lanes_single_left]
    refine ⟨_, rfl, ?_⟩
    rcases hy with ⟨w, rfl, hw⟩ | rfl
    · exact Or.inl ⟨op.apply v w, rfl, fun k hk => by simp only [hv k hk, hw k hk]⟩
    · exact Or.inr (by rw [List.map_map]; exact List.map_congr_left fun k hk => by simp [hv k hk])
  · rcases hy with ⟨w, rfl, hw⟩ | rfl
    · rw [Arith.lanes_single_right]
      refine ⟨_, rfl, Or.inr ?_⟩
      rw [List.map_map]
      exact List.map_congr_left fun k hk => by simp [hw k hk]
    · refine ⟨_, ?_, Or.inr rfl⟩
      unfold Arith.lanes
      rw [if_pos (by simp), List.zipWith_map, List.zipWith_self]

end Spread

/-- Code for the counts from `b` on, `w` of them, at one count `c`: registers renamed, and of each
place that moves as many lanes as there are counts. -/
inductive Inst.Spreads (φ : Reg → Reg) (b w c : Nat) : Inst α → Inst α → Prop
  | share {dst : Reg} {src src' : Address} {n : Nat} (segment : src'.segment = src.segment)
      (index : ∀ lane < w, src'.index c 0 = src.index (b + lane) 0) :
      Spreads φ b w c (.load dst src n) (.load (φ dst) src' 1)
  | load {dst : Reg} {src src' : Address} {n : Nat} (segment : src'.segment = src.segment)
      (index : ∀ lane < w, src'.index c lane = src.index (b + lane) 0) :
      Spreads φ b w c (.load dst src n) (.load (φ dst) src' w)
  | store {dst dst' : Address} {x : Operand α} {n : Nat} (segment : dst'.segment = dst.segment)
      (index : ∀ lane < w, dst'.index c lane = dst.index (b + lane) 0) :
      Spreads φ b w c (.store dst x n) (.store dst' (x.rename φ) w)
  | binary {dst : Reg} {op : Arith} {x y : Operand α} :
      Spreads φ b w c (.binary dst op x y) (.binary (φ dst) op (x.rename φ) (y.rename φ))

variable [Scalar α]

namespace Lanes

theorem foldl_act_of_target (inst : Inst α) {dst : Reg} (hi : inst.target? = some dst)
    {ks : List Nat} (hks : ks.Nodup) (s : Lanes α) :
    (ks.foldl (fun s k => inst.act s k) s).memory = s.memory ∧
      ∀ k r, (ks.foldl (fun s k => inst.act s k) s).values k r =
        if k ∈ ks ∧ r = dst then inst.value s k else s.values k r := by
  induction ks generalizing s with
  | nil => simp
  | cons j ks ih =>
    obtain ⟨hj, hks⟩ := List.nodup_cons.mp hks
    obtain ⟨hm, hv⟩ := ih hks (inst.act s j)
    rw [List.foldl_cons]
    rw [Inst.act_of_target hi] at hm hv ⊢
    refine ⟨hm, fun k r => ?_⟩
    rw [hv k r]
    by_cases hk : k = j
    · subst hk
      simp [hj, set]
    · rw [Inst.value_set_of_ne s hk]
      simp [hk, set]

theorem foldl_act_store {dst dst' : Address} {x : Operand α} {n c w : Nat}
    (segment : dst'.segment = dst.segment) :
    ∀ (b lane : Nat) (s : Lanes α), (∀ i < w, dst'.index c (lane + i) = dst.index (b + i) 0) →
      (List.range' b w).foldl (fun s k => Inst.act s (.store dst x n) k) s =
        ⟨s.values, Memory.writeFrom dst' c lane ((List.range' b w).map fun k => x.eval (s.values k))
          s.memory⟩ := by
  induction w with
  | zero => exact fun _ _ _ _ => rfl
  | succ w ih =>
    intro b lane s hi
    have h0 : dst'.index c lane = dst.index b 0 := hi 0 (by omega)
    rw [List.range'_succ, List.foldl_cons, ih (b + 1) (lane + 1)]
    · simp only [Inst.act, Inst.value, List.map_cons, Memory.writeFrom, segment, h0]
    · intro i hlt
      have := hi (i + 1) (by omega)
      rwa [Nat.add_right_comm lane, Nat.add_right_comm b, Nat.add_assoc lane, Nat.add_assoc b]

end Lanes

section Ends

variable {call : String → Exec α Unit} {name : String} {φ : Reg → Reg}
  {b w c : Nat} {V : Set Reg} {s : Lanes α} {g : Frame α}

def Frame.Carries (φ : Reg → Reg) (ks : List Nat) (V : Set Reg) (s : Lanes α) (g : Frame α) :
    Prop := ∀ r ∈ V, ∃ xs, g.get? (φ r) = some xs ∧ Spread ks xs fun k => s.values k r

omit [Scalar α] in
theorem Frame.Carries.operand {ks : List Nat} (hg : Frame.Carries φ ks V s g) {x : Operand α}
    (hx : x.Reads V) :
    ∃ xs, Frame.value? g (x.rename φ) = some xs ∧ Spread ks xs fun k => x.eval (s.values k) := by
  cases x with
  | reg r => exact hg r hx
  | imm v => exact ⟨[v], rfl, Or.inl ⟨v, rfl, fun _ _ => rfl⟩⟩

theorem Frame.Carries.define {inst : Inst α} {dst : Reg} (hi : inst.target? = some dst)
    {ks : List Nat} (hks : ks.Nodup) (hφ : ∀ r ∈ V, φ r = φ dst → r = dst)
    (hg : Frame.Carries φ ks V s g) {xs : List α} (hxs : Spread ks xs fun k => inst.value s k) :
    Frame.Carries φ ks (inst.define V) (ks.foldl (fun s k => inst.act s k) s)
      (g.set (φ dst) xs) := by
  obtain ⟨-, hv⟩ := Lanes.foldl_act_of_target inst hi hks s
  intro r hr
  by_cases hrd : r = dst
  · subst hrd
    refine ⟨xs, by rw [RegMap.get?_set, if_pos rfl], hxs.congr fun k hk => ?_⟩
    rw [hv k r, if_pos ⟨hk, rfl⟩]
  · have hV : r ∈ V := hr.resolve_right fun ht =>
      hrd (by rw [hi] at ht; exact (Option.some.inj ht).symm)
    obtain ⟨ys, hys, hspread⟩ := hg r hV
    refine ⟨ys, ?_, hspread.congr fun k _ => ?_⟩
    · rw [RegMap.get?_set, if_neg fun he => hrd (hφ r hV he), hys]
    · rw [hv k r, if_neg fun h => hrd h.2]

/-- An instruction for many counts does what each of them does. -/
theorem Inst.Spreads.ends {inst inst' : Inst α} (h : inst.Spreads φ b w c inst')
    (hr : inst.Scoped true V) (hφ : ∀ r ∈ V, ∀ dst, inst.target? = some dst → φ r = φ dst → r = dst)
    (hg : Frame.Carries φ (List.range' b w) V s g)
    (hm : ∀ a n, inst'.access? = some (a, n) → s.memory.Holds a c n) :
    ∃ g', inst'.exec call name c g s.memory =
        .ok g' ((List.range' b w).foldl (fun s k => inst.act s k) s).memory ∧
      Frame.Carries φ (List.range' b w) (inst.define V)
        ((List.range' b w).foldl (fun s k => inst.act s k) s) g' := by
  have hks : (List.range' b w).Nodup := List.nodup_range'
  cases h with
  | @share dst src src' n segment index =>
    obtain ⟨hmem, -⟩ := Lanes.foldl_act_of_target (.load dst src n) rfl hks s
    refine ⟨_, exec_load_iff.mpr ⟨hm _ _ rfl, rfl, hmem⟩, hg.define rfl hks (hφ · · dst rfl) ?_⟩
    refine Or.inl ⟨s.memory.valueAt src' c 0, rfl, fun k hk => ?_⟩
    obtain ⟨lane, hl, rfl⟩ := List.mem_range'.mp hk
    simp only [value, Memory.valueAt, segment, one_mul, index lane hl]
  | @load dst src src' n segment index =>
    obtain ⟨hmem, -⟩ := Lanes.foldl_act_of_target (.load dst src n) rfl hks s
    refine ⟨_, exec_load_iff.mpr ⟨hm _ _ rfl, rfl, hmem⟩, hg.define rfl hks (hφ · · dst rfl)
      (Or.inr ?_)⟩
    rw [List.range'_eq_map_range, List.map_map]
    refine List.map_congr_left fun lane hl => ?_
    simp only [value, Memory.valueAt, segment, Function.comp_apply,
      index lane (List.mem_range.mp hl)]
  | @store dst dst' x n segment index =>
    obtain ⟨xs, hx, hspread⟩ := hg.operand hr
    have hlen := hspread.length_eq
    have hstretch := hspread.stretch_eq
    rw [List.length_range'] at hlen hstretch
    have hend := Lanes.foldl_act_store (x := x) (n := n) segment b 0 s (by simpa using index)
    rw [hend]
    refine ⟨g, exec_store_iff.mpr ⟨xs, hx, hlen, hm _ _ rfl, rfl, by rw [hstretch]⟩, ?_⟩
    rintro r (hV | ht)
    · exact hg r hV
    · cases ht
  | @binary dst op x y =>
    obtain ⟨hmem, -⟩ := Lanes.foldl_act_of_target (.binary dst op x y) rfl hks s
    obtain ⟨xs, hx, hxs⟩ := hg.operand hr.1
    obtain ⟨ys, hy, hys⟩ := hg.operand hr.2
    obtain ⟨zs, hz, hzs⟩ := hxs.lanes hys op
    exact ⟨_, exec_binary_iff.mpr ⟨xs, ys, zs, hx, hy, hz, rfl, hmem⟩,
      hg.define rfl hks (hφ · · dst rfl) hzs⟩

theorem Inst.Plain.holds {context : Context α} {S : Set α} {info : Reg → Info α}
    {shape : Option Check.Shape} {inst : Inst α} (h : inst.Plain context S info shape)
    (hc : Check.AtCount shape c) {m : Memory α} (hm : m.Fits context.segments) {a : Address}
    {n : Nat} (ha : inst.access? = some (a, n)) : m.Holds a c n := by
  cases inst with
  | load dst src k =>
    cases ha
    exact hm.holds h.1 hc
  | store dst x k =>
    cases ha
    exact hm.holds h.1 hc
  | binary _ _ _ _ => cases ha
  | call _ => cases ha
  | loop _ _ _ _ => cases ha

theorem Inst.Spreads.fits {context : Context α} {S : Set α} {info : Reg → Info α}
    {shape : Option Check.Shape} {inst inst' : Inst α} (h : inst.Spreads φ b w c inst')
    (hp : inst'.Plain context S info shape) {m m' : Memory α} {g' : Frame α}
    (hm : m.Fits context.segments) (hexec : inst'.exec call name c g m = .ok g' m') :
    m'.Fits context.segments := by
  cases h with
  | share _ _ =>
    obtain ⟨-, -, rfl⟩ := exec_load_iff.mp hexec
    exact hm
  | load _ _ =>
    obtain ⟨-, -, rfl⟩ := exec_load_iff.mp hexec
    exact hm
  | store _ _ =>
    obtain ⟨-, -, -, -, -, rfl⟩ := exec_store_iff.mp hexec
    obtain ⟨seg, hs, hw⟩ := hp.writes
    exact hm.keeps (.writeFrom hs hw _ _ _ _)
  | binary =>
    obtain ⟨-, -, -, -, -, -, -, rfl⟩ := exec_binary_iff.mp hexec
    exact hm

/-- Code for many counts does what the counts do together. -/
theorem Block.spreads_ends (call : String → Exec α Unit) (name : String) {context : Context α}
    {S : Set α} {info : Reg → Info α} {shape : Option Check.Shape} (hc : Check.AtCount shape c)
    {body body' : Block α} (h : List.Forall₂ (Inst.Spreads φ b w c) body body') :
    ∀ {V : Set Reg} {s : Lanes α} {g : Frame α}, Block.Scoped true V body →
      (∀ r ∈ Block.define body V, ∀ r' ∈ Block.define body V, φ r = φ r' → r = r') →
      Frame.Carries φ (List.range' b w) V s g → s.memory.Fits context.segments →
      (∀ inst ∈ body', inst.Plain context S info shape) →
      ∃ g', Block.exec call name c body' g s.memory =
        .ok g' (actAll body (List.range' b w) s).memory ∧
        (actAll body (List.range' b w) s).memory.Fits context.segments := by
  induction h with
  | nil => exact fun _ _ _ hm _ => ⟨_, rfl, hm⟩
  | @cons inst inst' body body' hi _ ih =>
    intro V s g hs hφ hg hm hp
    have hsub : inst.define V ⊆ Block.define (inst :: body) V := Block.subset_define body _
    have hp' := hp inst' List.mem_cons_self
    obtain ⟨g₁, hexec, hg₁⟩ :=
      hi.ends hs.1 (fun r hr dst hd => hφ r (hsub (Or.inl hr)) dst (hsub (Or.inr hd))) hg
      (fun a n => hp'.holds hc hm)
    obtain ⟨g₂, hexec₂, hm₂⟩ := ih hs.2 hφ hg₁ (hi.fits hp' hm hexec) fun i hi =>
      hp i (List.mem_cons_of_mem _ hi)
    refine ⟨g₂, ?_, hm₂⟩
    rw [Block.exec, Exec.bind_of_ok hexec]
    exact hexec₂

/-- A loop over code for `w` counts each does what all the counts do one after another, if no count
in a round is in conflict with another. -/
theorem Block.iterate_ends (call : String → Exec α Unit) (name : String) {context : Context α}
    {S : Set α} {info : Reg → Info α} {body body' : Block α} {n step : Nat}
    (hsp : ∀ i < n, List.Forall₂ (Inst.Spreads φ (b + i * w) w (i * step)) body body')
    (hp : ∀ inst ∈ body', inst.Plain context S info (some ⟨n, step⟩))
    (hs : Block.Scoped true ∅ body) (hφ : ∀ r ∈ Block.define body ∅, ∀ r' ∈ Block.define body ∅,
      φ r = φ r' → r = r')
    (hap : ∀ i < n, body.Pairwise fun inst inst' => (List.range' (b + i * w) w).Pairwise fun k k' =>
      k ≠ k' ∧ inst'.Apart k inst k') (hm : s.memory.Fits context.segments) :
    ∃ g', Exec.iterate (fun k g => Block.exec call name k body' g) step n 0 g s.memory =
        .ok g' (actEach body (List.range' b (n * w)) s).memory ∧
      (actEach body (List.range' b (n * w)) s).memory.Fits context.segments := by
  have hrounds : ∀ (k i : Nat) (s : Lanes α) (g : Frame α), i + k = n →
    s.memory.Fits context.segments →
      ∃ g', Exec.iterate (fun k g => Block.exec call name k body' g) step k (i * step) g s.memory =
          .ok g' (actEach body (List.range' (b + i * w) (k * w)) s).memory ∧
        (actEach body (List.range' (b + i * w) (k * w)) s).memory.Fits context.segments := by
    intro k
    induction k with
    | zero =>
      intro i s g _ hm
      exact ⟨g, by simp [Exec.iterate, actEach], by simpa [actEach] using hm⟩
    | succ k ih =>
      intro i s g hi hm
      have hlt : i < n := by omega
      have hat : Check.AtCount (some ⟨n, step⟩) (i * step) := ⟨i, hlt, rfl⟩
      obtain ⟨g₁, hround, hm₁⟩ := Block.spreads_ends call name (g := g) hat (hsp i hlt)
        hs hφ (fun r hr => absurd hr (by simp)) hm hp
      rw [actAll_eq_actEach (hap i hlt)] at hround hm₁
      obtain ⟨g₂, hrest, hm₂⟩ :=
        ih (i + 1) (actEach body (List.range' (b + i * w) w) s) g₁ (by omega) hm₁
      have heach : actEach body (List.range' (b + i * w) ((k + 1) * w)) s =
          actEach body (List.range' (b + (i + 1) * w) (k * w))
          (actEach body (List.range' (b + i * w) w) s) := by
        rw [Nat.add_mul k, Nat.add_mul i, Nat.one_mul, Nat.add_comm (k * w), actEach_add,
          Nat.add_assoc]
      rw [heach]
      refine ⟨g₂, ?_, hm₂⟩
      rw [Exec.iterate, Exec.bind_of_ok hround, ← hrest, Nat.add_mul, Nat.one_mul]
  simpa using hrounds n 0 s g (by omega) hm

end Ends
end StreamStats
