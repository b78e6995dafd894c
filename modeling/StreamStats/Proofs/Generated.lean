import StreamStats.Proofs.Emitted
import StreamStats.Proofs.Reaching

/-! For which circuits there is code, and what all generated programs keep to. -/

namespace StreamStats

namespace Program

variable {α : Type}

/-- A program that can be run from one place: it is well-formed, its routines have different names,
one of them can be called from outside and calls only routines that are there, and no routine has
used up its registers. -/
structure Closed (p : Program α) (entry : String) : Prop where
  check_eq_ok : p.check = .ok ()
  nodup : p.routineNames.Nodup
  externalNames_eq : p.externalNames = [entry]
  callees : ∀ r ∈ p.routines, r.linkage = .external → ∀ callee ∈ r.callees, callee ∈ p.routineNames
  counted : ∀ r ∈ p.routines, ∀ reg ∈ Block.mentions r.body, reg < r.nextReg

end Program

namespace Codegen

variable {α : Type} [Scalar α] {c : Circuit α} {output : Bus} {o : Options} {n : Nat}

theorem program_succeeds_iff :
    (∃ p, program c output o = .ok p) ↔ (∃ n, .input n ∈ c.cells) ∧ output ≠ [] ∧
    (∀ p ∈ output, c.Has p) ∧ ∀ m n, .input m ∈ c.cells → .input n ∈ c.cells → m = n := by
  have hadmits : (∃ p, program c output o = .ok p) ↔ ∃ n, admits c output = .ok n := by
    constructor
    · rintro ⟨p, hp⟩
      obtain ⟨n, hn, -⟩ := ok_of_bind hp
      exact ⟨n, hn⟩
    · rintro ⟨n, hn⟩
      exact ⟨emit c output o n, by rw [program, hn]; rfl⟩
  simp only [hadmits, admits_eq_ok_iff]
  constructor
  · rintro ⟨n, hn, hne, houtput, hinputs⟩
    exact ⟨⟨n, Circuit.input_mem hn⟩, hne, houtput, fun k l hk hl =>
      (hinputs k hk).trans (hinputs l hl).symm⟩
  · rintro ⟨hinput, hne, houtput, hinputs⟩
    obtain ⟨n, hn⟩ := Circuit.exists_inputSize?_iff.mpr hinput
    exact ⟨n, hn, hne, houtput, fun k hk => hinputs k n hk (Circuit.input_mem hn)⟩

@[simp] theorem externalNames_emit :
    (emit c output o n).externalNames = [entryName o.programName] := by
  have hinternal : ((layoutOf c o).routinesFrom o.programName 0 c.cells.toList).filter
      (·.linkage = .external) = [] := by
    rw [List.filter_eq_nil_iff]
    intro r hr
    obtain ⟨_, _, _, -, -, -, rfl⟩ := Layout.mem_routinesFrom.mp hr
    simp [Routine.ofBody, Routine.sync]
  rw [Program.externalNames, emit_routines, List.filter_append, hinternal]
  simp [entryRoutine, Routine.ofBody, Routine.sync]

theorem closed_emit (hc : c.Sound) (ha : Admitted c output n)
    (hcells : ∀ cell ∈ c.cells.toList, cell.size ≤ signBound)
    (houtput : output.length ≤ signBound) :
    (emit c output o n).Closed (entryName o.programName) := by
  have htame := emit_tame (o := o) hc ha hcells houtput
  exact {
    check_eq_ok := Program.check_eq_ok_iff.mpr ⟨nodup_emit, fun r hr =>
      (htame r hr).1.sound.check_eq_ok⟩
    nodup := nodup_emit
    externalNames_eq := externalNames_emit
    callees := fun r hr _ => (htame r hr).1.callees
    counted := fun r hr => (htame r hr).2 }

/-- There is code for exactly the circuits that have inputs of one size and outputs that are there,
and all of it is well-formed, provided that signed words tell the places of every cell apart. -/
theorem program_total (hc : c.Built) (output : Bus) (o : Options) :
    ((∃ p, program c output o = .ok p) ↔ (∃ n, .input n ∈ c.cells) ∧ output ≠ [] ∧
      (∀ p ∈ output, c.Has p) ∧ ∀ m n, .input m ∈ c.cells → .input n ∈ c.cells → m = n) ∧
    ((∀ cell ∈ c.cells.toList, cell.size ≤ signBound) → output.length ≤ signBound →
      ∀ p, program c output o = .ok p → p.Closed (entryName o.programName)) := by
  refine ⟨program_succeeds_iff, fun hcells houtput p hp => ?_⟩
  obtain ⟨n, hn, hp⟩ := ok_of_bind hp
  cases hp
  exact closed_emit hc.sound (admitted_of_admits hn) hcells houtput

theorem program_total_drift :
    drift.Built ∧ (∀ cell ∈ drift.cells.toList, cell.size ≤ signBound) ∧
      ∃ p, program drift [⟨3, 1⟩, ⟨3, 0⟩] { unrollLimit := 0 } = .ok p ∧
      p.Closed "features_predict" := by
  have hcells : ∀ cell ∈ drift.cells.toList, cell.size ≤ signBound := by
    simp [drift, Circuit.ofCells, Cell.size, signBound]
  obtain ⟨hiff, hclosed⟩ := program_total built_drift [⟨3, 1⟩, ⟨3, 0⟩] { unrollLimit := 0 }
  obtain ⟨p, hp⟩ := hiff.mpr (by simp [Circuit.Has, drift, Circuit.ofCells, Cell.size])
  exact ⟨built_drift, hcells, p, hp, hclosed hcells (by simp [signBound]) p hp⟩

end Codegen
end StreamStats
