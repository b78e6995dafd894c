import StreamStats.Proofs.Doubles
import StreamStats.Proofs.Emitted
import StreamStats.Proofs.Pipeline

/-! Machines over optimized programs. Generated code meets all that passes ask for, so optimizing it
succeeds, and the machine over what comes out gives the answers of the machine over what was
generated, sample by sample. -/

namespace StreamStats

variable {α : Type} [Scalar α]

namespace Machine

/-- The answers to samples, one after another. -/
def answers (m : Machine α) (entry : String) : List (List α) → List (Except Fault (List α))
  | [] => []
  | sample :: rest => (m.run entry sample).1 :: (m.run entry sample).2.answers entry rest

structure Alike (entry : String) (R : Memory α → Memory α → Prop) (m n : Machine α) : Prop where
  segments_eq : n.program.segments = m.program.segments
  bridge : Program.Bridge entry m.program n.program R
  memory : R m.memory n.memory

variable {entry : String} {R : Memory α → Memory α → Prop} {m n m' : Machine α}
    {sample values : List α}

theorem alike_of_answers {p q : Program α} (h : p.Answers entry q) :
    ∃ R, Alike entry R (.ofProgram p) (.ofProgram q) := by
  obtain ⟨hs, R, b⟩ := h
  exact ⟨R, hs, b, b.start⟩

theorem Alike.segmentOf?_eq (h : Alike entry R m n) (role : Role) :
    n.program.segmentOf? role = m.program.segmentOf? role := by
  rw [Program.segmentOf?, Program.segmentOf?, h.segments_eq]

theorem Alike.admits_eq (h : Alike entry R m n) (sample : List α) :
    n.admits sample = m.admits sample := by
  obtain ⟨hm, hn⟩ := h.bridge.fits h.memory
  have hsize : ∀ s, m.program.segmentOf? .input = some s →
      n.memory.sizeOf s = m.memory.sizeOf s := by
    intro s hs
    obtain ⟨seg, hseg, -⟩ := exists_segment hs
    rw [hm.sizeOf_eq s seg hseg, hn.sizeOf_eq s seg hseg]
  simp only [admits, h.segmentOf?_eq]
  cases hs : m.program.segmentOf? .input with
  | none => rfl
  | some s =>
    cases m.program.segmentOf? .output with
    | none => rfl
    | some t => simp only [hsize s hs]

theorem Alike.run (h : Alike entry R m n) (hrun : m.run entry sample = (.ok values, m')) :
    ∃ n', n.run entry sample = (.ok values, n') ∧ Alike entry R m' n' := by
  have hadmits := h.admits_eq sample
  cases ha : m.admits sample with
  | error e =>
    simp only [Machine.run, ha] at hrun
    cases hrun
  | ok segments =>
    obtain ⟨source, target⟩ := segments
    obtain ⟨hsource, htarget, hlen⟩ := admits_eq_ok ha
    obtain ⟨seg, hseg, hrole⟩ := exists_segment hsource
    obtain ⟨seg', hseg', hrole'⟩ := exists_segment htarget
    have hsize : sample.toArray.size = seg.size := by
      rw [List.size_toArray, hlen, (h.bridge.fits h.memory).1.sizeOf_eq source seg hseg]
    have hin := h.bridge.handIn h.memory source seg sample.toArray hseg hrole hsize
    have hcall := h.bridge.call hin
    simp only [Machine.run, ha, hadmits, Machine.call] at hrun ⊢
    cases hm : m.program.call callLimit entry (m.memory.setIfInBounds source sample.toArray) with
    | error e k =>
      simp only [hm] at hrun
      cases hrun
    | ok u k =>
      obtain ⟨u', k', hn, hR⟩ := hcall u k hm
      simp only [hm] at hrun
      cases hrun
      have hout := h.bridge.output hR target seg' hseg' hrole'
      refine ⟨{ n with memory := k', runs := n.runs + 1 }, ?_, h.segments_eq, h.bridge, hR⟩
      simp only [hn, segment?, hout]

theorem Alike.run_of_refused (h : Alike entry R m n) {e : Fault} (ha : m.admits sample = .error e) :
    n.run entry sample = (.error e, n) := by
  simp only [Machine.run, h.admits_eq sample, ha]

end Machine

namespace Codegen

variable {c : Circuit α} {output : Bus} {o : Options}

section Emitted

variable {size : Nat} {R : Memory α → Memory α → Prop} {m n : Machine α} {s : Simulator α}

/-- A machine over other code answers as the one over generated code does. -/
theorem InStep.answers_eq (hc : c.Sound) (ha : Admitted c output size)
    (hcells : ∀ cell ∈ c.cells.toList, cell.size ≤ signBound) (houtput : output.length ≤ signBound)
    (h : InStep c output o size m s) (hn : m.Alike (entryName o.programName) R n)
    (samples : List (List α)) :
    n.answers (entryName o.programName) samples = m.answers (entryName o.programName) samples := by
  induction samples generalizing m n s with
  | nil => rfl
  | cons sample rest ih =>
    simp only [Machine.answers]
    rcases h.step hc ha hcells houtput sample with ⟨values, m', s', hm, -, h'⟩ |
      ⟨e, -, hadmits, hm, -⟩
    · obtain ⟨n', hrun, hn'⟩ := hn.run hm
      simp only [hm, hrun, ih h' hn']
    · simp only [hm, hn.run_of_refused hadmits, ih h hn]

theorem ready_emit (hc : c.Sound) (ha : Admitted c output size)
    (hcells : ∀ cell ∈ c.cells.toList, cell.size ≤ signBound)
    (houtput : output.length ≤ signBound) :
    (emit c output o size).Ready {v | c.Immediate output v} (entryName o.programName) :=
  ⟨fun r hr => (emit_tame hc ha hcells houtput r hr).1, nodup_emit,
    fun r hr => (emit_tame hc ha hcells houtput r hr).2, entry_mem_externalNames⟩

end Emitted

end Codegen

namespace Optimizer

/-- With these settings all that is asked of an optimizer succeeds: to be made, to optimize the
program, and to optimize routines of what is left, in any order; and then a machine answers as one
over the program does. -/
def KeepsAnswers {σ : Type} (p : Program α) (entry : String) (target : Option Target)
    (settings : OptimizerSettings) (world : σ) : Prop :=
  (configure p (target.map Target.tuning) settings).Succeeds world fun o world =>
    optimizeProgram.Succeeds (o, world) fun _ t =>
      ∀ names : List String, (∀ name ∈ names, name ∈ t.1.program.routineNames) →
        (names.mapM optimizeRoutine).Succeeds t fun _ t' =>
          ∀ samples, (Machine.ofProgram t'.1.program).answers entry samples =
            (Machine.ofProgram p).answers entry samples

/-- Optimizing generated code changes no answer, if packing does not take different numbers for the
same: the two zeros compare equal, so they must not both come to stand in code that is packed. -/
theorem keepsAnswers_of_built [LawfulScalar α] {σ : Type} {c : Circuit α} (hc : c.Built)
    {output : Bus} {o : Codegen.Options} {p : Program α} (hp : Codegen.program c output o = .ok p)
    (hcells : ∀ cell ∈ c.cells.toList, cell.size ≤ signBound) (houtput : output.length ≤ signBound)
    {settings : OptimizerSettings} (hsettings : settings.validate = .ok ()) {target : Option Target}
    (hpack : settings.Packs target → Pack.Distinct {v | c.Immediate output v}) (world : σ) :
    KeepsAnswers p (Codegen.entryName o.programName) target settings world := by
  obtain ⟨size, ha, hp⟩ := ok_of_bind hp
  cases hp
  have ha := Codegen.admitted_of_admits ha
  have hready := Codegen.ready_emit (o := o) hc.sound ha hcells houtput
  refine (configure_succeeds hsettings hpack _ world).imp ?_
  rintro opt world₁ ⟨ho, hroutines, hprograms⟩
  refine (optimizeProgram_succeeds hpack hready ho hroutines hprograms world₁).imp
    fun _ t h₂ names hnames => ?_
  refine (optimizeRoutines_succeeds h₂ hnames t.2).imp fun _ t' h₃ samples => ?_
  obtain ⟨R, halike⟩ := Machine.alike_of_answers h₃.becomes.answers
  exact (Codegen.inStep_start ha).answers_eq hc.sound ha hcells houtput halike samples

end Optimizer

namespace Optimizer

def optimized? {σ : Type} (p : Program α) (target : Option Target) (settings : OptimizerSettings)
    (world : σ) :
    Option (Program α) :=
  match (configure p (target.map Target.tuning) settings).run world with
  | (.ok o, world) =>
    match optimizeProgram.run (o, world) with
    | (.ok _, o, _) => some o.program
    | _ => none
  | _ => none

theorem KeepsAnswers.optimized {σ : Type} {p : Program α} {entry : String} {target : Option Target}
    {settings : OptimizerSettings} {world : σ} (h : KeepsAnswers p entry target settings world) :
    ∃ q, optimized? p target settings world = some q ∧
      ∀ samples, (Machine.ofProgram q).answers entry samples =
        (Machine.ofProgram p).answers entry samples := by
  obtain ⟨o, world₁, ho, changed, t, ht, h⟩ := h
  obtain ⟨_, t', ht', h⟩ := h [] (by simp)
  cases ht'
  refine ⟨t.1.program, ?_, h⟩
  simp only [optimized?, ho, ht]

end Optimizer

/-- What packing takes for equal but is not: the two zeros. -/
@[simp] theorem Pack.distinct_iff {S : Set Float} : Distinct S ↔ ¬(0 ∈ S ∧ -0 ∈ S) := by
  constructor
  · rintro h ⟨hpos, hneg⟩
    exact absurd (h 0 hpos (-0) hneg (by decide)) (by decide)
  · intro h x hx y hy hxy
    obtain ⟨-, -, heq | ⟨rfl, rfl⟩ | ⟨rfl, rfl⟩⟩ := Float.beq_iff_ne_nan_and_eq.mp hxy
    · exact heq
    · exact absurd ⟨hx, hy⟩ h
    · exact absurd ⟨hy, hx⟩ h

namespace Optimizer

/-- Optimizing code generated for floating-point numbers changes no answer, bit by bit. Where
packing is asked for that holds only as long as no two zeros of different signs come to stand in the
code. -/
theorem keepsAnswers_float {σ : Type} {c : Circuit Float} (hc : c.Built) {output : Bus}
    {o : Codegen.Options} {p : Program Float} (hp : Codegen.program c output o = .ok p)
    (hcells : ∀ cell ∈ c.cells.toList, cell.size ≤ signBound) (houtput : output.length ≤ signBound)
    {settings : OptimizerSettings} (hsettings : settings.validate = .ok ()) {target : Option Target}
    (hzeros : settings.Packs target → ¬(c.Immediate output 0 ∧ c.Immediate output (-0)))
    (world : σ) :
    KeepsAnswers p (Codegen.entryName o.programName) target settings world :=
  keepsAnswers_of_built hc hp hcells houtput hsettings
  (fun h => Pack.distinct_iff.mpr (hzeros h)) world

def scaling (v w : Float) : Circuit Float :=
  .ofCells #[.input 2, .constant [v, w], .binary .mul [⟨0, 0⟩, ⟨0, 1⟩] [⟨1, 0⟩, ⟨1, 1⟩]]

def scaled : Bus := [⟨2, 0⟩, ⟨2, 1⟩]

def scalingProgram (v w : Float) : Program Float := Codegen.emit (scaling v w) scaled {} 2

def pairing : OptimizerSettings := { vectorWidth := 2 }

section Scaling

variable (v w : Float)

theorem built_scaling : (scaling v w).Built := by
  have h0 : (Circuit.ofCells #[] : Circuit Float).Built := Circuit.built_ofCells_empty
  refine Circuit.built_ofCells_push (Circuit.built_ofCells_push
    (Circuit.built_ofCells_push h0 rfl ?_) rfl ?_) rfl ?_
  all_goals simp [Cell.sources, Circuit.Has, Circuit.ofCells, Cell.size]

theorem program_scaling : Codegen.program (scaling v w) scaled {} = .ok (scalingProgram v w) := by
  have hc : (scaling v w).check scaled = .ok () :=
    Circuit.check_eq_ok_iff.mpr (by simp [Circuit.Has, scaling, scaled, Circuit.ofCells, Cell.size])
  have hi : (scaling v w).inputSize? = some 2 := by
    simp [Circuit.inputSize?, scaling, Circuit.ofCells]
    rfl
  simp only [Codegen.program, Codegen.admits, hc, hi]
  simp [scaling, scaled, Circuit.ofCells, Cell.inputSize?]
  rfl

theorem size_scaling : ∀ cell ∈ (scaling v w).cells.toList, cell.size ≤ signBound := by
  simp [scaling, Circuit.ofCells, Cell.size, signBound]

variable {v w}

/-- Only the two constants can come to stand in code. -/
theorem immediate_scaling {x : Float} (h : (scaling v w).Immediate scaled x) : x = v ∨ x = w := by
  have hvalue : ∀ p : Pin, (scaling v w).constant? p = some x → x = v ∨ x = w := by
    rintro ⟨cell, element⟩ hp
    match cell, element with
    | 1, 0 => exact Or.inl (Option.some.inj hp).symm
    | 1, 1 => exact Or.inr (Option.some.inj hp).symm
    | 0, _ | 1, _ + 2 | 2, _ | _ + 3, _ => cases hp
  cases h with
  | source _ _ _ hx => exact hvalue _ hx
  | output _ hx => exact hvalue _ hx
  | @result op lhs rhs i p q y z hcell hl _ hy _ =>
    simp only [scaling, Circuit.ofCells, List.mem_toArray, List.mem_cons, reduceCtorEq,
      Cell.binary.injEq, List.not_mem_nil, or_false, false_or] at hcell
    obtain ⟨-, rfl, -⟩ := hcell
    rcases i with _ | _ | i <;> cases hl <;> cases hy

end Scaling

theorem keepsAnswers_float_scaling :
    (scaling 2 3).Built ∧ Codegen.program (scaling 2 3) scaled {} = .ok (scalingProgram 2 3) ∧
      (∀ cell ∈ (scaling 2 3).cells.toList, cell.size ≤ signBound) ∧ scaled.length ≤ signBound ∧
      pairing.validate = .ok () ∧ pairing.Packs none ∧
      ¬((scaling 2 3).Immediate scaled 0 ∧ (scaling 2 3).Immediate scaled (-0)) ∧
      KeepsAnswers (scalingProgram 2 3) "features_predict" none pairing () := by
  have hzeros : ¬((scaling 2 3).Immediate scaled 0 ∧ (scaling 2 3).Immediate scaled (-0)) :=
    fun h =>
    (immediate_scaling h.1).elim (by decide) (by decide)
  exact ⟨built_scaling _ _, program_scaling _ _, size_scaling _ _, by simp [scaled, signBound], rfl,
    ⟨by decide, rfl, by decide⟩, hzeros,
    keepsAnswers_float (built_scaling _ _) (program_scaling _ _) (size_scaling _ _)
    (by simp [scaled, signBound]) rfl (fun _ => hzeros) ()⟩

/-- Two zeros of different signs are packed into one, so a sign is lost. -/
theorem not_keepsAnswers_scaling_zeros :
    (scaling 0 (-0)).Built ∧
      Codegen.program (scaling 0 (-0)) scaled {} = .ok (scalingProgram 0 (-0)) ∧
      (∀ cell ∈ (scaling 0 (-0)).cells.toList, cell.size ≤ signBound) ∧ scaled.length ≤ signBound ∧
      pairing.validate = .ok () ∧
      ¬KeepsAnswers (scalingProgram 0 (-0)) "features_predict" none pairing () := by
  refine ⟨built_scaling _ _, program_scaling _ _, size_scaling _ _,
    by simp [scaled, signBound], rfl, fun h => ?_⟩
  obtain ⟨q, hq, hsame⟩ := h.optimized
  have hdiffer : ∀ q ∈ optimized? (scalingProgram 0 (-0)) none pairing (),
      (Machine.ofProgram q).answers "features_predict" [[1, 1]] ≠
        (Machine.ofProgram (scalingProgram 0 (-0))).answers "features_predict" [[1, 1]] := by
    decide +kernel
  exact hdiffer q hq (hsame _)

end Optimizer
end StreamStats
