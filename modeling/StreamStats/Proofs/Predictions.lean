import StreamStats.Compiler
import StreamStats.Proofs.Agreement
import StreamStats.Proofs.Generated
import StreamStats.Proofs.Optimized

/-! From features to answers. A registry is wired, code is made for the circuit, and the code is
optimized; a session over what comes out answers every sample as the circuit does, whatever was
refused before and however often the session was reset. -/

namespace StreamStats

variable {α : Type} [Scalar α]

namespace Circuit

variable {c : Circuit α} {takes allowed : Nat → Prop} {output : Bus} {p : Pin} {v : α}

omit [Scalar α] in
theorem Varies.constant?_eq_none (h : c.Varies p) : c.constant? p = none := by
  obtain ⟨cell, hcell, -, hconstant⟩ := h
  cases cell with
  | constant values => exact absurd rfl (hconstant values)
  | _ => simp [constant?, hcell]

theorem Wirable.constant?_eq_some (h : c.Wirable takes allowed) (hp : c.constant? p = some v) :
    ∃ n, 0 < n ∧ v = Scalar.ofNat n := by
  unfold constant? at hp
  split at hp
  · rename_i values hcell
    obtain ⟨n, hn, rfl⟩ := h.constants values (Array.mem_of_getElem? hcell)
    exact ⟨n, hn, List.mem_singleton.mp (List.mem_of_getElem? hp)⟩
  · cases hp

theorem Wirable.immediate (h : c.Wirable takes allowed) (hv : c.Immediate output v) :
    ∃ n, 0 < n ∧ v = Scalar.ofNat n := by
  cases hv with
  | source _ _ _ hp => exact h.constant?_eq_some hp
  | output _ hp => exact h.constant?_eq_some hp
  | result hcell hl _ hx _ =>
    rw [(h.lhs _ _ _ hcell _ (List.mem_of_getElem? hl)).constant?_eq_none] at hx
    cases hx

end Circuit

namespace Simulator

variable {s s' : Simulator α} {output : Bus} {sample values : List α}

theorem exists_observe_iff (hcheck : s.circuit.check output = .ok ()) :
    (∃ r, s.observe sample output = .ok r) ↔ checkSample s.circuit sample = .ok () := by
  constructor
  · rintro ⟨⟨values, s'⟩, h⟩
    obtain ⟨⟨⟩, hsample, -⟩ := ok_of_bind (step_of_observe h)
    exact hsample
  · intro hsample
    obtain ⟨s', hstep⟩ : ∃ s', s.step sample = .ok s' := by
      rw [step, hsample]
      exact ⟨_, rfl⟩
    refine ⟨(s'.read output, s'), ?_⟩
    rw [observe, hcheck]
    show s.step sample >>= _ = _
    rw [hstep]
    rfl

theorem stepEach_concat {start : Simulator α} {past : List (List α)}
    (hpast : start.stepEach past = .ok s) (hstep : s.step sample = .ok s') :
    start.stepEach (past ++ [sample]) = .ok s' := by
  rw [stepEach, List.foldlM_append, ← stepEach, hpast]
  show [sample].foldlM step s = _
  rw [List.foldlM_cons, hstep]
  rfl

end Simulator

namespace Session

inductive Use (α : Type) where
  | predict (sample : List α)
  | reset

/-- The samples taken since the start or the last reset, the oldest first: those of one width. -/
def Use.taken {α : Type} (width : Nat) (past : List (List α)) : Use α → List (List α)
  | predict sample => if sample.length = width then past ++ [sample] else past
  | reset => []

def use (s : Session α) : Use α → Session α
  | .predict sample => (s.predict sample).2
  | .reset => s.reset

variable {c : Circuit α} {output : Bus} {o : Codegen.Options} {width : Nat}
    {R : Memory α → Memory α → Prop} {q : Program α} {s : Session α} {sim : Simulator α}

/-- The session runs a program, and its machine is like one over the code for a circuit that is in
step with the simulator. -/
structure InStep (c : Circuit α) (output : Bus) (o : Codegen.Options) (width : Nat)
    (R : Memory α → Memory α → Prop) (q : Program α) (s : Session α) (sim : Simulator α) :
    Prop where
  entry_eq : s.entry = Codegen.entryName o.programName
  program_eq : s.machine.program = q
  machine :
  ∃ m, Codegen.InStep c output o width m sim ∧ m.Alike (Codegen.entryName o.programName) R s.machine

section Uses

variable (hc : c.Sound) (ha : Codegen.Admitted c output width)
    (hcells : ∀ cell ∈ c.cells.toList, cell.size ≤ signBound) (houtput : output.length ≤ signBound)
  (htakes : ∀ sample : List α, Simulator.checkSample c sample = .ok () ↔ sample.length = width)

include hc ha hcells houtput htakes in
/-- A sample of the right width is answered as by the simulator, any other is refused and changes
nothing. -/
theorem InStep.predict (h : InStep c output o width R q s sim) (sample : List α) :
    (sample.length = width ∧ ∃ values s' sim', s.predict sample = (.ok values, s') ∧
      sim.observe sample output = .ok (values, sim') ∧ InStep c output o width R q s' sim') ∨
    (sample.length ≠ width ∧ ∃ e, s.predict sample = (.error e, s)) := by
  obtain ⟨hentry, hprogram, m, hm, halike⟩ := h
  have hobserve : (∃ r, sim.observe sample output = .ok r) ↔ sample.length = width := by
    rw [Simulator.exists_observe_iff (by rw [hm.circuit, Circuit.check_eq_ok_iff]; exact ha.output),
      hm.circuit, htakes]
  rcases hm.step hc ha hcells houtput sample with ⟨values, m', sim', hrun, hsim, hm'⟩ |
    ⟨e, e', hadmits, -, hsim⟩
  · obtain ⟨n', hrun', halike'⟩ := halike.run hrun
    refine .inl ⟨hobserve.mp ⟨_, hsim⟩, values, ⟨n', s.entry⟩, sim', ?_, hsim, hentry, ?_, m', hm',
      halike'⟩
    · simp only [Session.predict, hentry, hrun']
    · have hkept := (s.machine.run_snd (Codegen.entryName o.programName) sample).1
      rw [hrun'] at hkept
      exact hkept.trans hprogram
  · refine .inr ⟨fun hsample => ?_, e, ?_⟩
    · obtain ⟨r, hr⟩ := hobserve.mpr hsample
      rw [hsim] at hr
      cases hr
    · simp only [Session.predict, hentry, halike.run_of_refused hadmits]
      rw [← hentry]

variable (hq : (Machine.ofProgram (Codegen.emit c output o width)).Alike
    (Codegen.entryName o.programName) R (.ofProgram q))

include ha hq in
theorem InStep.reset (h : InStep c output o width R q s sim) :
    InStep c output o width R q s.reset (Simulator.ofCircuit c) := by
  refine ⟨h.entry_eq, h.program_eq, _, Codegen.inStep_start ha, ?_⟩
  show Machine.Alike _ _ _ (.ofProgram s.machine.program)
  rw [h.program_eq]
  exact hq

include hc ha hcells houtput htakes hq in
/-- After any uses the session is in step with a simulator that has been shown the samples taken. -/
theorem InStep.uses {past : List (List α)} (h : InStep c output o width R q s sim)
    (hpast : (Simulator.ofCircuit c).stepEach past = .ok sim) (uses : List (Use α)) :
    ∃ sim', (Simulator.ofCircuit c).stepEach (uses.foldl (Use.taken width) past) = .ok sim' ∧
      InStep c output o width R q (uses.foldl use s) sim' := by
  induction uses generalizing s sim past with
  | nil => exact ⟨sim, hpast, h⟩
  | cons first uses ih =>
    simp only [List.foldl_cons]
    cases first with
    | reset => exact ih (h.reset ha hq) rfl
    | predict sample =>
      rcases h.predict hc ha hcells houtput htakes sample with
        ⟨hsample, values, s', sim', hpredict, hobserve, h'⟩ | ⟨hsample, e, hpredict⟩
      · rw [use, hpredict, Use.taken, if_pos hsample]
        exact ih h' (Simulator.stepEach_concat hpast (Simulator.step_of_observe hobserve))
      · rw [use, hpredict, Use.taken, if_neg hsample]
        exact ih h hpast

end Uses

end Session

namespace Compiled

open ExceptT Registry

/-- Comparing counts tells them apart, as packing needs it. -/
def DistinctCounts (α : Type) [Scalar α] : Prop :=
  Pack.Distinct {v : α | ∃ n, 0 < n ∧ v = Scalar.ofNat n}

/-- A registry is compiled, and after any uses a session answers a sample of the right width as the
circuit does that has been shown the samples taken, and refuses any other sample, which changes
nothing. -/
def Predicts (settings : Settings) (r : Registry α) (width : Nat) : Prop :=
  ∃ w k, r.wire = .ok w ∧ ofRegistry settings r = .ok k ∧
    ∀ uses : List (Session.Use α),
      let session := uses.foldl Session.use k.session
      ∃ sim, (Simulator.ofCircuit w.circuit).stepEach (uses.foldl (Session.Use.taken width) []) =
        .ok sim ∧ ∀ sample : List α,
          (sample.length = width ∧ ∃ values session' sim',
            session.predict sample = (.ok values, session') ∧
            sim.observe sample w.output = .ok (values, sim')) ∨
          (sample.length ≠ width ∧ ∃ e, session.predict sample = (.error e, session))

variable [LawfulScalar α] {w : Wired α} {width : Nat} {features : List (Feature α)}
    {settings : Settings}

/-- Code for a circuit that hosts features is optimized, and a session over what comes out starts in
step. -/
theorem exists_optimized (hosts : w.circuit.Hosts (· = width) (· ≤ signBound) w.buses features)
    (hadmits : Codegen.admits w.circuit w.output = .ok width)
    (houtput : w.output.length ≤ signBound) (hcounts : DistinctCounts α)
    (hsettings : settings.optimizer.validate = .ok ()) :
    ∃ q R, (Optimizer.optimize (Codegen.emit w.circuit w.output settings.codegen width)
        (settings.target.map Target.tuning) settings.optimizer).run () = (.ok q, ()) ∧
      (Machine.ofProgram (Codegen.emit w.circuit w.output settings.codegen width)).Alike
        (Codegen.entryName settings.codegen.programName) R (.ofProgram q) ∧
      Session.InStep w.circuit w.output settings.codegen width R q
        ⟨.ofProgram q, Codegen.entryName q.name⟩ (.ofCircuit w.circuit) := by
  have ha := Codegen.admitted_of_admits hadmits
  have hcells : ∀ cell ∈ w.circuit.cells.toList, cell.size ≤ signBound := fun cell hcell =>
    hosts.wirable.sizes cell (Array.mem_toList_iff.mp hcell)
  have hready := Codegen.ready_emit (o := settings.codegen) hosts.wirable.built.sound ha hcells
    houtput
  have hdistinct : Pack.Distinct {v | w.circuit.Immediate w.output v} := fun x hx y hy =>
    hcounts x (hosts.wirable.immediate hx) y (hosts.wirable.immediate hy)
  have hoptimized : (Optimizer.optimize (Codegen.emit w.circuit w.output settings.codegen width)
      (settings.target.map Target.tuning) settings.optimizer).Succeeds () fun q _ =>
        Program.Becomes _ _ _ q :=
    Optimizer.optimize_succeeds hsettings (fun _ => hdistinct) hready ()
  obtain ⟨q, ⟨⟩, hrun, hq⟩ := hoptimized
  obtain ⟨R, halike⟩ := Machine.alike_of_answers hq.answers
  exact ⟨q, R, hrun, halike, congrArg Codegen.entryName hq.name_eq, rfl, _, Codegen.inStep_start ha,
    halike⟩

/-- Of the arithmetic, only neutral numbers and the comparison of counts matter. -/
theorem predicts_of_built {r : Registry α} (hr : r.Built) (hne : r.entries ≠ #[])
    (hwidth : 0 < width) (hdimensions : r.TakesWidth width)
    (hallows : r.Allows width (· ≤ signBound)) (hcounts : DistinctCounts α)
    (hsettings : settings.optimizer.validate = .ok ()) : Predicts settings r width := by
  obtain ⟨w, hwire, hosts, hinput, hmem⟩ := hr.fresh.wire hne hwidth hdimensions hallows
  have hlen : w.output.length = width := hosts.takes_length _ hmem
  have houtput : w.output.length ≤ signBound := hlen ▸ hallows.1.2
  have hadmits : Codegen.admits w.circuit w.output = .ok width :=
    Codegen.admits_eq_ok_iff.mpr ⟨hinput, List.ne_nil_of_length_pos (hlen ▸ hwidth),
      fun p hp => (hosts.varies _ hmem p hp).has, fun k hk => hosts.wirable.inputs _ hk k rfl⟩
  have hprogram : Codegen.program w.circuit w.output settings.codegen =
      .ok (Codegen.emit w.circuit w.output settings.codegen width) := by
    rw [Codegen.program, hadmits]
    rfl
  have ha := Codegen.admitted_of_admits hadmits
  have hc := hosts.wirable.built.sound
  have hcells : ∀ cell ∈ w.circuit.cells.toList, cell.size ≤ signBound := fun cell hcell =>
    hosts.wirable.sizes cell (Array.mem_toList_iff.mp hcell)
  have htakes : ∀ sample : List α, Simulator.checkSample w.circuit sample = .ok () ↔
      sample.length = width := fun _ => hosts.wirable.checkSample_eq_ok_iff hinput
  obtain ⟨q, R, hoptimize, halike, hstart⟩ :=
    exists_optimized hosts hadmits houtput hcounts hsettings
  have hshown : (Simulator.ofCircuit w.circuit).stepEach [] = .ok (.ofCircuit w.circuit) := rfl
  refine ⟨w, ⟨q, Codegen.entryName q.name, width, w.output.length⟩, hwire, ?_, fun uses => ?_⟩
  · simp only [ofRegistry, hwire, hprogram, hoptimize, hinput, Except.mapError, bind, Except.bind]
    rfl
  · obtain ⟨sim, hsim, hsession⟩ := hstart.uses hc ha hcells houtput htakes halike hshown uses
    refine ⟨sim, hsim, fun sample => ?_⟩
    rcases hsession.predict hc ha hcells houtput htakes sample with
      ⟨hsample, values, s', sim', hpredict, hobserve, -⟩ | hrefused
    · exact .inl ⟨hsample, values, s', sim', hpredict, hobserve⟩
    · exact .inr hrefused

theorem distinctCounts_float : DistinctCounts Float :=
  Pack.distinct_iff.mpr fun h => by
    obtain ⟨-, n, -, hn⟩ := h
    exact Double.ofNat_ne_negZero n hn.symm

/-- Compiled features predict what their circuit computes, float by float, under all valid
settings. -/
theorem predicts_float {r : Registry Float} (hr : r.Built) (hne : r.entries ≠ #[]) {width : Nat}
    (hwidth : 0 < width) (hdimensions : r.TakesWidth width)
    (hallows : r.Allows width (· ≤ signBound)) {settings : Settings}
    (hsettings : settings.optimizer.validate = .ok ()) : Predicts settings r width :=
  predicts_of_built hr hne hwidth hdimensions hallows distinctCounts_float hsettings

theorem predicts_float_chained :
    Predicts
      { codegen := { unrollLimit := 1 }, optimizer := { optLevel := 3 }, target := some .sse2 }
      (chained : Registry Float) 2 :=
  predicts_float built_chained (by simp [chained]) (by decide)
    (by simp [TakesWidth, features, chained, Feature.ofInput])
      (by simp [Allows, features, chained, Feature.ofInput, Feature.Stage.window?, signBound]) rfl

end Compiled
end StreamStats
