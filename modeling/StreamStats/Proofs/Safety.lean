import StreamStats.Proofs.Checked
import StreamStats.Proofs.Memory

/-! Checked programs do not go wrong. A frame holds for every register in scope a value of the lanes
that are expected of it; then every instruction finds its operands, its places and its callees. What
can end a call is the depth of calls alone, and memory keeps its sizes and all that is not to be
written. -/

namespace StreamStats

open Check

variable {α : Type}

namespace Memory

/-- Sizes have stayed, and with them the contents of segments that are not to be written. -/
structure Keeps (segments : Array (Segment α)) (m m' : Memory α) : Prop where
  size_eq : m'.size = m.size
  sizeOf_eq : ∀ s, m'.sizeOf s = m.sizeOf s
  unwritten : ∀ (s : Nat) (seg : Segment α), segments[s]? = some seg → seg.role.isWritable = false →
    m'[s]? = m[s]?

/-- Memory as segments lay it out, with the constants in place. -/
structure Fits (segments : Array (Segment α)) (m : Memory α) : Prop where
  size_eq : m.size = segments.size
  sizeOf_eq : ∀ (s : Nat) (seg : Segment α), segments[s]? = some seg → m.sizeOf s = seg.size
  constant : ∀ (s : Nat) (seg : Segment α), segments[s]? = some seg → seg.role = .constant →
    m[s]? = some seg.contents

namespace Keeps

variable {segments : Array (Segment α)} {m m' m'' : Memory α}

@[simp] theorem refl (m : Memory α) : Keeps segments m m := ⟨rfl, fun _ => rfl, fun _ _ _ _ => rfl⟩

theorem trans (h : Keeps segments m m') (h' : Keeps segments m' m'') : Keeps segments m m'' :=
  ⟨h'.size_eq.trans h.size_eq, fun s => (h'.sizeOf_eq s).trans (h.sizeOf_eq s),
    fun s seg hs hw => (h'.unwritten s seg hs hw).trans (h.unwritten s seg hs hw)⟩

theorem writeFrom {dst : Address} {seg : Segment α} (hs : segments[dst.segment]? = some seg)
    (hw : seg.role.isWritable = true) (count lane : Nat) (values : List α) (m : Memory α) :
    Keeps segments m (writeFrom dst count lane values m) := by
  refine ⟨by simp, by simp, fun s seg' hs' hw' => ?_⟩
  apply getElem?_writeFrom_of_ne
  rintro rfl
  rw [hs] at hs'
  cases hs'
  simp [hw] at hw'

end Keeps

theorem Fits.keeps {segments : Array (Segment α)} {m m' : Memory α} (h : Fits segments m)
    (hk : Keeps segments m m') : Fits segments m' := by
  refine ⟨hk.size_eq.trans h.size_eq, fun s seg hs => (hk.sizeOf_eq s).trans (h.sizeOf_eq s seg hs),
    ?_⟩
  intro s seg hs hc
  rw [hk.unwritten s seg hs (by simp [hc, Role.isWritable])]
  exact h.constant s seg hs hc

theorem Fits.holds {segments : Array (Segment α)} {m : Memory α} (h : Fits segments m)
    {shape : Option Shape} {a : Address} {lanes count : Nat} {writes : Bool}
    (ha : Reaches segments shape a lanes writes) (hc : AtCount shape count) :
    m.Holds a count lanes := by
  intro lane hl
  obtain ⟨s, hs, -, hin⟩ := ha.segment
  have hspan := hc.lt_span hl
  rw [hin.index_eq hspan, h.sizeOf_eq _ s hs]
  obtain ⟨h0, h1, -⟩ := hin _ hspan
  exact ⟨h0, h1⟩

end Memory

@[simp] theorem Program.fits_initialMemory (p : Program α) : p.initialMemory.Fits p.segments := by
  refine ⟨by simp [initialMemory], fun s seg hs => ?_, fun s seg hs _ => ?_⟩
  · simp [initialMemory, Memory.sizeOf, hs, Segment.size]
  · simp [initialMemory, hs]

namespace Frame

/-- Every register in scope holds values, either one or as many as are expected. -/
def Typed (lanes : Reg → Nat) (V : Set Reg) (f : Frame α) : Prop :=
  ∀ r ∈ V, ∃ xs, f.get? r = some xs ∧ xs ≠ [] ∧ (xs.length = 1 ∨ xs.length = lanes r)

theorem Typed.mono {lanes : Reg → Nat} {V W : Set Reg} (h : W ⊆ V) {f : Frame α}
    (hf : f.Typed lanes V) :
    f.Typed lanes W :=
  fun r hr => hf r (h hr)

theorem Typed.set {lanes : Reg → Nat} {V : Set Reg} {f : Frame α} (hf : f.Typed lanes V) {r : Reg}
    {xs : List α} (hx : xs ≠ []) (hl : xs.length = 1 ∨ xs.length = lanes r) :
    Typed lanes {r' | r' ∈ V ∨ some r = some r'} (f.set r xs) := by
  intro r' hr'
  by_cases hr : r' = r
  · subst hr
    exact ⟨xs, by simp, hx, hl⟩
  · have hV : r' ∈ V := hr'.resolve_right fun he => hr (Option.some.inj he).symm
    simpa [hr] using hf r' hV

theorem Typed.read {lanes : Reg → Nat} {V : Set Reg} {f : Frame α} (hf : f.Typed lanes V)
    {x : Operand α} (hx : x.Reads V) (name : String) :
    ∃ xs, f.read name x = .ok xs ∧ xs ≠ [] ∧ (xs.length = 1 ∨ xs.length = x.width lanes) := by
  cases x with
  | imm v => exact ⟨[v], rfl, by simp, Or.inl rfl⟩
  | reg r =>
    obtain ⟨xs, hr, hne, hl⟩ := hf r hx
    exact ⟨xs, by simp [Frame.read, hr], hne, hl⟩

end Frame

theorem Arith.lanes_eq_ok [Scalar α] (op : Arith) {xs ys : List α}
    (h : xs.length = ys.length ∨ xs.length = 1 ∨ ys.length = 1) (hx : xs ≠ []) (hy : ys ≠ []) :
    ∃ zs, op.lanes xs ys = .ok zs ∧ zs.length = max xs.length ys.length := by
  have hx0 : xs.length ≠ 0 := by simpa using hx
  have hy0 : ys.length ≠ 0 := by simpa using hy
  unfold Arith.lanes
  split
  · exact ⟨_, rfl, by simp; omega⟩
  · split
    · exact ⟨_, rfl, by simp only [List.length_map, List.length_singleton]; omega⟩
    · exact ⟨_, rfl, by simp only [List.length_map, List.length_singleton]; omega⟩
    · rename_i hne _ _ h1 h2
      rcases h with h | h | h
      · exact absurd h hne
      · obtain ⟨x, rfl⟩ := List.length_eq_one_iff.mp h
        exact absurd rfl (h1 x)
      · obtain ⟨y, rfl⟩ := List.length_eq_one_iff.mp h
        exact absurd rfl (h2 y)

namespace Exec

/-- A run ends with a value as told, or because calls nest too deep; either way memory is kept. -/
def Safe {β : Type} (segments : Array (Segment α)) (P : β → Prop) (m : Memory α) :
    EStateM.Result Fault (Memory α) β → Prop
  | .ok b m' => P b ∧ m.Keeps segments m'
  | .error e m' => e = .callDepth ∧ m.Keeps segments m'

variable {segments : Array (Segment α)}

theorem Safe.imp {β : Type} {P Q : β → Prop} {m : Memory α} {r : EStateM.Result Fault (Memory α) β}
    (h : Safe segments P m r) (hpq : ∀ b, P b → Q b) : Safe segments Q m r := by
  cases r with
  | ok b m' => exact ⟨hpq b h.1, h.2⟩
  | error e m' => exact h

theorem Safe.bind {β γ : Type} {P : β → Prop} {Q : γ → Prop} {x : Exec α β} {f : β → Exec α γ}
    {m : Memory α} (h : Safe segments P m (x m))
    (hf : ∀ b m', P b → m.Keeps segments m' → Safe segments Q m' (f b m')) :
    Safe segments Q m ((x >>= f) m) := by
  cases hx : x m with
  | error e m' =>
    rw [hx] at h
    rw [bind_of_error hx]
    exact h
  | ok b m' =>
    rw [hx] at h
    rw [bind_of_ok hx]
    have hb := hf b m' h.1 h.2
    cases hy : f b m' with
    | ok c m'' =>
      rw [hy] at hb
      exact ⟨hb.1, h.2.trans hb.2⟩
    | error e m'' =>
      rw [hy] at hb
      exact ⟨hb.1, h.2.trans hb.2⟩

/-- What every round keeps, all rounds keep. -/
theorem Safe.iterate {β : Type} {P : β → Prop} {f : Nat → β → Exec α β} {step : Nat} {m₀ : Memory α}
    (n : Nat) : ∀ {count : Nat} {b : β} {m : Memory α}, m₀.Keeps segments m → P b →
      (∀ i < n, ∀ b m, m₀.Keeps segments m → P b → Safe segments P m (f (count + i * step) b m)) →
      Safe segments P m (Exec.iterate f step n count b m) := by
  induction n with
  | zero => exact fun hm hb _ => ⟨hb, .refl _⟩
  | succ n ih =>
    intro count b m hm hb hf
    simp only [Exec.iterate]
    refine Safe.bind (by simpa using hf 0 (by omega) b m hm hb) fun b' m' hb' hm' => ?_
    refine ih (hm.trans hm') hb' fun i hi b'' m'' hm'' hb'' => ?_
    have := hf (i + 1) (by omega) b'' m'' hm'' hb''
    rwa [Nat.add_mul, Nat.one_mul, Nat.add_comm (i * step), ← Nat.add_assoc] at this

end Exec

open Exec

variable [Scalar α]

mutual

theorem Inst.exec_safe {context : Context α} {lanes : Reg → Nat} {call : String → Exec α Unit}
    (hcall : ∀ name ∈ context.routines, ∀ m, m.Fits context.segments →
      Safe context.segments (fun _ => True) m (call name m)) (name : String) :
    ∀ {inst : Inst α} {shape : Option Shape} {count : Nat} {V : Set Reg} {f : Frame α}
      {m : Memory α},
      inst.Each (fun shape inst => inst.Legal context lanes shape) shape → inst.Scoped false V →
      f.Typed lanes V → AtCount shape count → m.Fits context.segments →
      Safe context.segments (Frame.Typed lanes (inst.define V)) m (inst.exec call name count f m)
  | .load dst src n, shape, count, V, f, m, hl, _, hf, hc, hm => by
    have hload := load_of_holds (hm.holds hl.1 hc)
    have hn := hl.1.lanes_ne_zero
    simp only [Inst.exec]
    rw [bind_of_ok hload]
    refine ⟨hf.set ?_ ?_, .refl m⟩
    · simpa using hn
    · simpa using hl.2
  | .store dst src n, shape, count, V, f, m, hl, hs, hf, hc, hm => by
    obtain ⟨xs, hread, -, hlen⟩ := hf.read hs name
    have hxs : xs.length = 1 ∨ xs.length = n := by
      have := hl.2
      omega
    obtain ⟨s, hseg, hw, -⟩ := hl.1.segment
    simp only [Inst.exec, hread]
    rw [bind_of_ok (lift_ok_apply xs m), bind_of_ok (store_of_holds hxs (hm.holds hl.1 hc))]
    have hd : (Inst.store dst src n).define V = V := by simp [Inst.define, Inst.target?]
    exact ⟨by rwa [hd], .writeFrom hseg (hw rfl) _ _ _ _⟩
  | .binary dst op lhs rhs, shape, count, V, f, m, hl, hs, hf, hc, hm => by
    obtain ⟨xs, hx, hx0, hxl⟩ := hf.read hs.1 name
    obtain ⟨ys, hy, hy0, hyl⟩ := hf.read hs.2 name
    obtain ⟨h1, h2⟩ := hl
    obtain ⟨zs, hz, hzl⟩ := Arith.lanes_eq_ok op (by omega) hx0 hy0
    have hx0 : xs.length ≠ 0 := by simpa using hx0
    have hy0 : ys.length ≠ 0 := by simpa using hy0
    simp only [Inst.exec, hx, hy]
    rw [bind_of_ok (lift_ok_apply xs m), bind_of_ok (lift_ok_apply ys m), hz,
      bind_of_ok (lift_ok_apply zs m)]
    refine ⟨hf.set ?_ ?_, .refl m⟩
    · rw [← List.length_pos_iff]
      omega
    · omega
  | .call callee, shape, count, V, f, m, hl, _, hf, hc, hm => by
    have hd : (Inst.call (α := α) callee).define V = V := by simp [Inst.define, Inst.target?]
    simp only [Inst.exec]
    exact (hcall callee hl m hm).bind fun _ m' _ _ => ⟨by rwa [hd], .refl m'⟩
  | .loop trips step parallel body, shape, count, V, f, m, hl, hs, hf, hc, hm => by
    have hd : (Inst.loop trips step parallel body).define V = V := by
      simp [Inst.define, Inst.target?]
    have hstep : max step 1 = step := by
      have := hl.1.2
      omega
    have hsb : Block.Scoped false V body := by simpa [Inst.Scoped] using hs
    simp only [Inst.exec, hstep, hd]
    refine Safe.iterate _ (.refl m) hf fun i hi f' m' hm' hf' => ?_
    have hcount : AtCount (some ⟨iterations trips step, step⟩) (0 + i * step) := ⟨i, hi, by simp⟩
    have hb := Block.exec_safe hcall name hl.2 hsb hf' hcount (hm.keeps hm')
    exact hb.imp fun g hg => hg.mono (Block.subset_define body V)

theorem Block.exec_safe {context : Context α} {lanes : Reg → Nat} {call : String → Exec α Unit}
    (hcall : ∀ name ∈ context.routines, ∀ m, m.Fits context.segments →
      Safe context.segments (fun _ => True) m (call name m)) (name : String) :
    ∀ {body : List (Inst α)} {shape : Option Shape} {count : Nat} {V : Set Reg} {f : Frame α}
      {m : Memory α}, Block.Each (fun shape inst => inst.Legal context lanes shape) shape body →
      Block.Scoped false V body → f.Typed lanes V → AtCount shape count → m.Fits context.segments →
      Safe context.segments (Frame.Typed lanes (Block.define body V)) m
        (Block.exec call name count body f m)
  | [], shape, count, V, f, m, _, _, hf, _, _ => ⟨hf, .refl m⟩
  | inst :: rest, shape, count, V, f, m, hl, hs, hf, hc, hm => by
    simp only [Block.exec, Block.define_cons]
    exact (Inst.exec_safe hcall name hl.1 hs.1 hf hc hm).bind fun g m' hg hm' =>
      Block.exec_safe hcall name hl.2 hs.2 hg hc (hm.keeps hm')

end

namespace Program

/-- A call of a routine that exists ends well or nests too deep, whatever memory it starts from. -/
theorem call_safe {p : Program α} (hp : ∀ r ∈ p.routines, r.Sound p.context false) (depth : Nat) :
    ∀ name ∈ p.routineNames, ∀ m, m.Fits p.segments →
      Safe p.segments (fun _ => True) m (p.call depth name m) := by
  induction depth with
  | zero => exact fun _ _ m _ => ⟨rfl, .refl m⟩
  | succ depth ih =>
    intro name hname m hm
    obtain ⟨r', hr', hn⟩ := List.mem_map.mp hname
    obtain ⟨r, hr⟩ : ∃ r, p.routine? name = some r := by
      rw [← Option.isSome_iff_exists, routine?, List.find?_isSome]
      exact ⟨r', hr', by simp [hn]⟩
    have hsound := hp r (mem_of_routine? hr)
    obtain ⟨lanes, hl⟩ := hsound.legal
    have htyped : Frame.Typed (α := α) lanes ∅ RegMap.empty := by simp [Frame.Typed]
    have hcount : AtCount none 0 := rfl
    have hb := Block.exec_safe ih name hl hsound.reads htyped hcount hm
    simp only [call, hr, discard]
    exact hb.bind fun _ m' _ _ => ⟨trivial, .refl m'⟩

/-- No index that the program computes is cut to a word. -/
def IndicesExact (p : Program α) : Prop := ∀ r ∈ p.routines, Block.Each Inst.Exact none r.body

def InWords (p : Program α) : Prop := ∀ r ∈ p.routines, Block.Each Inst.InWords none r.body

instance (p : Program α) : Decidable p.IndicesExact :=
  inferInstanceAs (Decidable (∀ r ∈ p.routines, Block.Each Inst.Exact none r.body))

instance (p : Program α) : Decidable p.InWords :=
  inferInstanceAs (Decidable (∀ r ∈ p.routines, Block.Each Inst.InWords none r.body))

omit [Scalar α] in
theorem sound_of_check {p : Program α} (h : p.check = .ok ()) (he : p.IndicesExact) :
    ∀ r ∈ p.routines, r.Sound p.context false :=
  fun r hr => Routine.sound_of_check ((check_eq_ok_iff.mp h).2 r hr) (he r hr)

end Program

namespace Machine

/-- The machines that calls, runs and resets lead to, whether they fail or not. -/
inductive Reached (p : Program α) : Machine α → Prop where
  | start : Reached p (ofProgram p)
  | call {m : Machine α} (name : String) : Reached p m → Reached p (m.call name).2
  | run {m : Machine α} (entry : String) (input : List α) : Reached p m →
      Reached p (m.run entry input).2
  | reset {m : Machine α} : Reached p m → Reached p m.reset

@[simp] theorem call_snd_program (m : Machine α) (name : String) :
    (m.call name).2.program = m.program := by
  unfold call
  split <;> rfl

theorem run_snd (m : Machine α) (entry : String) (input : List α) :
    (m.run entry input).2.program = m.program ∧
      ((m.run entry input).2.memory = m.memory ∨ ∃ source target,
        m.admits input = .ok (source, target) ∧ (m.run entry input).2.memory =
          ({ m with memory := m.memory.setIfInBounds source input.toArray }.call
            entry).2.memory) := by
  unfold run
  cases ha : m.admits input with
  | error e => exact ⟨rfl, Or.inl rfl⟩
  | ok places =>
    obtain ⟨source, target⟩ := places
    simp only [Except.ok.injEq, Prod.mk.injEq]
    have hp :=
      call_snd_program { m with memory := m.memory.setIfInBounds source input.toArray } entry
    cases hc : ({ m with memory := m.memory.setIfInBounds source input.toArray } : Machine α).call
      entry with
    | mk result m' =>
      rw [hc] at hp
      cases result <;> exact ⟨hp, Or.inr ⟨source, target, ⟨rfl, rfl⟩, by rw [hc]⟩⟩

omit [Scalar α] in
theorem admits_eq_ok {m : Machine α} {input : List α} {source target : Nat}
    (h : m.admits input = .ok (source, target)) :
    m.program.segmentOf? .input = some source ∧ m.program.segmentOf? .output = some target ∧
      input.length = m.memory.sizeOf source := by
  unfold admits at h
  split at h
  · cases h
  · cases h
  · split at h
    · cases h
      exact ⟨‹_›, ‹_›, ‹_›⟩
    · cases h

omit [Scalar α] in
theorem exists_segment {p : Program α} {role : Role} {s : Nat} (h : p.segmentOf? role = some s) :
    ∃ seg, p.segments[s]? = some seg ∧ seg.role = role := by
  obtain ⟨hlt, hrole, -⟩ := Array.findIdx?_eq_some_iff_getElem.mp h
  exact ⟨_, Array.getElem?_eq_getElem hlt, by simpa using hrole⟩

omit [Scalar α] in
theorem fits_handIn {m : Machine α} {segments : Array (Segment α)}
    (hp : m.program.segments = segments) (hm : m.memory.Fits segments) {input : List α}
    {source target : Nat} (h : m.admits input = .ok (source, target)) :
    Memory.Fits segments (m.memory.setIfInBounds source input.toArray) := by
  obtain ⟨hs, -, hl⟩ := admits_eq_ok h
  obtain ⟨hlt, hrole, -⟩ := Array.findIdx?_eq_some_iff_getElem.mp hs
  have hrole : m.program.segments[source].role = .input := by simpa using hrole
  subst hp
  refine ⟨by simp [hm.size_eq], fun s seg hseg => ?_, fun s seg hseg hc => ?_⟩
  · rw [← hm.sizeOf_eq s seg hseg, Memory.sizeOf, Array.getElem?_setIfInBounds]
    by_cases he : source = s
    · subst he
      have hlt' : source < m.memory.size := hm.size_eq ▸ hlt
      rw [if_pos rfl, if_pos hlt']
      simpa using hl
    · rw [if_neg he, Memory.sizeOf]
  · have hne : source ≠ s := by
      rintro rfl
      rw [Array.getElem?_eq_getElem hlt] at hseg
      cases hseg
      rw [hrole] at hc
      cases hc
    rw [Array.getElem?_setIfInBounds, if_neg hne]
    exact hm.constant s seg hseg hc

variable {p : Program α}

theorem call_keeps (hp : ∀ r ∈ p.routines, r.Sound p.context false) {m : Machine α}
    (hprogram : m.program = p) (hm : m.memory.Fits p.segments) (name : String) :
    m.memory.Keeps p.segments (m.call name).2.memory ∧
      (name ∈ p.routineNames → ∀ e, (m.call name).1 = .error e → e = .callDepth) := by
  subst hprogram
  unfold call
  by_cases hname : name ∈ m.program.routineNames
  · have hs := Program.call_safe hp callLimit name hname m.memory hm
    cases hc : m.program.call callLimit name m.memory with
    | ok _ m' =>
      rw [hc] at hs
      exact ⟨hs.2, fun _ e he => by cases he⟩
    | error e m' =>
      rw [hc] at hs
      exact ⟨hs.2, fun _ e' he => by cases he; exact hs.1⟩
  · have hnone : m.program.routine? name = none := by
      rw [Program.routine?, List.find?_eq_none]
      intro r hr he
      exact hname (List.mem_map.mpr ⟨r, hr, by simpa using he⟩)
    have hc : m.program.call callLimit name m.memory = .error (.unknownRoutine name) m.memory := by
      simp only [callLimit, Program.call, hnone]
      rfl
    rw [hc]
    exact ⟨.refl _, fun h => absurd h hname⟩

theorem Reached.fits (hp : ∀ r ∈ p.routines, r.Sound p.context false) {m : Machine α}
    (h : m.Reached p) : m.program = p ∧ m.memory.Fits p.segments := by
  induction h with
  | start => exact ⟨rfl, p.fits_initialMemory⟩
  | call name _ ih =>
    exact ⟨(call_snd_program _ _).trans ih.1, ih.2.keeps (call_keeps hp ih.1 ih.2 name).1⟩
  | @run m entry input _ ih =>
    obtain ⟨hprogram, hmemory⟩ := run_snd m entry input
    refine ⟨hprogram.trans ih.1, ?_⟩
    rcases hmemory with hmemory | ⟨source, target, ha, hmemory⟩
    · rw [hmemory]
      exact ih.2
    · have hin := fits_handIn (congrArg _ ih.1) ih.2 ha
      rw [hmemory]
      exact hin.keeps (call_keeps hp
        (m := { m with memory := m.memory.setIfInBounds source input.toArray }) ih.1 hin entry).1
  | @reset m _ ih =>
    refine ⟨ih.1, ?_⟩
    show Memory.Fits p.segments m.program.initialMemory
    rw [ih.1]
    exact p.fits_initialMemory

theorem run_fst_error (hp : ∀ r ∈ p.routines, r.Sound p.context false) {m : Machine α}
    (hprogram : m.program = p) (hm : m.memory.Fits p.segments) {entry : String}
    (hentry : entry ∈ p.routineNames) {input : List α} {e : Fault}
    (h : (m.run entry input).1 = .error e) : e = .callDepth ∨ m.admits input = .error e := by
  unfold run at h
  cases ha : m.admits input with
  | error e' =>
    rw [ha] at h
    cases h
    exact Or.inr rfl
  | ok places =>
    obtain ⟨source, target⟩ := places
    have hin := fits_handIn (congrArg _ hprogram) hm ha
    have hc :=
      (call_keeps hp (m := { m with memory := m.memory.setIfInBounds source input.toArray })
        hprogram hin entry).2 hentry
    rw [ha] at h
    cases hr : ({ m with memory := m.memory.setIfInBounds source input.toArray } : Machine α).call
      entry with
    | mk result m' =>
      simp only [hr] at h hc
      cases result with
      | ok _ => cases h
      | error e' =>
        cases h
        exact Or.inl (hc e rfl)

/-- A checked program does not go wrong, whatever its machine has been through. Calls can only nest
too deep; sizes stay, constants stay, and an input segment changes only when an input is handed in
or all is reset. -/
theorem checked_program_safe (hc : p.check = .ok ()) (he : p.IndicesExact) {m : Machine α}
    (hm : m.Reached p) :
    (∀ name ∈ p.routineNames, ∀ e, (m.call name).1 = .error e → e = .callDepth) ∧
      (∀ entry ∈ p.routineNames, ∀ input e, (m.run entry input).1 = .error e →
        e = .callDepth ∨ m.admits input = .error e) ∧
      m.memory.Fits p.segments ∧
      ∀ (s : Nat) (seg : Segment α), p.segments[s]? = some seg → seg.role = .input →
        (∀ name, (m.call name).2.memory[s]? = m.memory[s]?) ∧
        ∀ entry input, (m.run entry input).2.memory[s]? = m.memory[s]? ∨
          (∃ target, m.admits input = .ok (s, target)) ∧
            (m.run entry input).2.memory[s]? = some input.toArray := by
  have hp := Program.sound_of_check hc he
  obtain ⟨hprogram, hfits⟩ := hm.fits hp
  refine ⟨fun name hname => (call_keeps hp hprogram hfits name).2 hname,
    fun entry hentry input e h => run_fst_error hp hprogram hfits hentry h, hfits, ?_⟩
  intro s seg hs hrole
  have hread : seg.role.isWritable = false := by simp [hrole, Role.isWritable]
  refine ⟨fun name => (call_keeps hp hprogram hfits name).1.unwritten s seg hs hread, ?_⟩
  intro entry input
  rcases (run_snd m entry input).2 with hmemory | ⟨source, target, ha, hmemory⟩
  · exact Or.inl (by rw [hmemory])
  · have hin := fits_handIn (congrArg _ hprogram) hfits ha
    have hk := (call_keeps hp
      (m := { m with memory := m.memory.setIfInBounds source input.toArray }) hprogram hin
      entry).1.unwritten s seg hs hread
    rw [← hmemory] at hk
    rw [hk]
    by_cases hsource : source = s
    · subst hsource
      have hlt : source < m.memory.size := by
        rw [hfits.size_eq]
        exact (Array.getElem?_eq_some_iff.mp hs).1
      refine Or.inr ⟨⟨target, ha⟩, ?_⟩
      rw [Array.getElem?_setIfInBounds, if_pos rfl, if_pos hlt]
    · refine Or.inl ?_
      rw [Array.getElem?_setIfInBounds, if_neg hsource]

def doubling : Program Float where
  name := "doubling"
  segments := #[.zeros "input" .input 4, .zeros "output" .output 5, ⟨"five", .constant, #[5]⟩]
  routines := [
    .ofBody "mark" .internal [.load 0 (.fixed 2 0) 1, .store (.fixed 1 4) (.reg 0) 1],
    .ofBody "double" .external [
      .loop 4 2 true [.load 0 ⟨0, 3, -1⟩ 2, .binary 1 .mul (.reg 0) (.imm 2),
        .store ⟨1, 0, 1⟩ (.reg 1) 2, .call "mark"],
      .loop 0 1 false [.load 2 ⟨0, 9, 1⟩ 1]]]

theorem indicesExact_doubling : doubling.IndicesExact := by decide +kernel

/-- After a run, a call of a routine that does not exist, and a reset. -/
theorem checked_program_safe_doubling :
    doubling.check = .ok () ∧ doubling.IndicesExact ∧
      ∀ e, (((((ofProgram doubling).run "double" [1, 2, 3, 4]).2.call "halve").2.reset).call
        "double").1 = .error e → e = .callDepth := by
  have hc : doubling.check = .ok () := by decide +kernel
  refine ⟨hc, indicesExact_doubling, ?_⟩
  exact (checked_program_safe hc indicesExact_doubling
    (((Reached.start.run "double" [1, 2, 3, 4]).call "halve").reset)).1 "double" (by decide)

end Machine

end StreamStats
