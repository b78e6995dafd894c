import StreamStats.Proofs.Checked
import StreamStats.Proofs.Settling
import StreamStats.Text.Digits

/-! Generated programs do what their circuits do: machine and simulator stay in step over all
samples, those that are refused included. -/

namespace StreamStats

variable {α : Type}

namespace Program

variable [Scalar α]

theorem ends_call {p : Program α} {name : String} {r : Routine α} (h : p.routine? name = some r)
    {depth : Nat} {m m' : Memory α}
    (hb : Exec.Ends (Block.exec (p.call depth) name 0 r.body RegMap.empty) m m') :
    Exec.Ends (p.call (depth + 1) name) m m' := by
  simp only [call, h, discard]
  exact hb.bind fun _ => Exec.ends_pure _ m'

end Program

namespace Codegen

theorem cellRoutineName_injective {s : String} {a b : Nat}
    (h : cellRoutineName s a = cellRoutineName s b) : a = b :=
  toString_injective ((String.append_right_inj _).mp h)

@[simp] theorem cellRoutineName_ne_entryName (s : String) (a : Nat) :
    cellRoutineName s a ≠ entryName s := by
  intro h
  have h := congrArg String.toList h
  simp [cellRoutineName, entryName, String.toList_append] at h

namespace Layout

def routinesFrom (l : Layout) (programName : String) (id : Nat) (cells : List (Cell α)) :
    List (Routine α) :=
  (cells.zipIdx id).filterMap fun (cell, id) =>
    (l.cellBody? id cell).map (.ofBody (cellRoutineName programName id) .internal)

variable {l : Layout} {programName : String}

@[simp] theorem routinesFrom_cons (id : Nat) (cell : Cell α) (cells : List (Cell α)) :
    l.routinesFrom programName id (cell :: cells) =
      ((l.cellBody? id cell).map
        (Routine.ofBody (cellRoutineName programName id) .internal)).toList ++
          l.routinesFrom programName (id + 1) cells := by
  simp only [routinesFrom, List.zipIdx_cons]
  cases h : l.cellBody? id cell <;> simp [h]

theorem mem_routinesFrom {id : Nat} {cells : List (Cell α)} {r : Routine α} :
    r ∈ l.routinesFrom programName id cells ↔ ∃ (k : Nat) (cell : Cell α) (body : Block α), id ≤ k ∧
      cells[k - id]? = some cell ∧ l.cellBody? k cell = some body ∧
        r = .ofBody (cellRoutineName programName k) .internal body := by
  simp only [routinesFrom, List.mem_filterMap, Prod.exists,
    List.mk_mem_zipIdx_iff_le_and_getElem?_sub, Option.map_eq_some_iff]
  constructor
  · rintro ⟨cell, k, ⟨hk, hc⟩, body, hb, rfl⟩
    exact ⟨k, cell, body, hk, hc, hb, rfl⟩
  · rintro ⟨k, cell, body, hk, hc, hb, rfl⟩
    exact ⟨cell, k, ⟨hk, hc⟩, body, hb, rfl⟩

@[simp] theorem nodup_routinesFrom (id : Nat) (cells : List (Cell α)) :
    ((l.routinesFrom programName id cells).map Routine.name).Nodup := by
  induction cells generalizing id with
  | nil => simp [routinesFrom]
  | cons cell cells ih =>
    rw [routinesFrom_cons, List.map_append, List.nodup_append]
    refine ⟨?_, ih (id + 1), ?_⟩
    · cases l.cellBody? id cell <;> simp
    · intro a ha b hb
      obtain ⟨r, hr, rfl⟩ := List.mem_map.mp ha
      obtain ⟨r', hr', rfl⟩ := List.mem_map.mp hb
      obtain ⟨k, _, _, hk, -, -, rfl⟩ := mem_routinesFrom.mp hr'
      obtain ⟨body, -, rfl⟩ := Option.map_eq_some_iff.mp (Option.mem_toList.mp hr)
      intro he
      have := cellRoutineName_injective he
      omega

end Layout

variable [Scalar α] {c : Circuit α} {output : Bus} {o : Options} {n : Nat}

def layoutOf (c : Circuit α) (o : Options) : Layout :=
  ⟨(homes 1 c.cells.toList).toArray, o.unrollLimit⟩

def outputSegment (c : Circuit α) : Nat := (ownSegments 0 c.cells.toList).length + 1

def entryRoutine (c : Circuit α) (output : Bus) (o : Options) : Routine α :=
  .ofBody (entryName o.programName) .external
    (((layoutOf c o).routinesFrom o.programName 0 c.cells.toList).map (fun r => .call r.name) ++
      (layoutOf c o).copy 0 (outputSegment c) output)

theorem emit_routines : (emit c output o n).routines =
    (layoutOf c o).routinesFrom o.programName 0 c.cells.toList ++ [entryRoutine c output o] := rfl

theorem emit_segments : (emit c output o n).segments =
    (Segment.zeros "input" .input n :: ownSegments 0 c.cells.toList ++
      [Segment.zeros "output" .output output.length]).toArray := rfl

@[simp] theorem nodup_emit : (emit c output o n).routineNames.Nodup := by
  rw [Program.routineNames, emit_routines, List.map_append, List.nodup_append]
  refine ⟨Layout.nodup_routinesFrom _ _, by simp, ?_⟩
  intro a ha b hb
  obtain ⟨r, hr, rfl⟩ := List.mem_map.mp ha
  obtain ⟨k, _, _, -, -, -, rfl⟩ := Layout.mem_routinesFrom.mp hr
  have hb : b = entryName o.programName := by
    simpa [entryRoutine, Routine.ofBody, Routine.sync] using hb
  rw [hb]
  exact cellRoutineName_ne_entryName _ _

theorem routine?_cell {id : Nat} {cell : Cell α} {body : Block α} (hc : c.cells[id]? = some cell)
    (hb : (layoutOf c o).cellBody? id cell = some body) :
    (emit c output o n).routine? (cellRoutineName o.programName id) =
      some (.ofBody (cellRoutineName o.programName id) .internal body) := by
  refine Program.routine?_eq_some nodup_emit
    (r := .ofBody (cellRoutineName o.programName id) .internal body) ?_
  rw [emit_routines]
  exact List.mem_append_left _ (Layout.mem_routinesFrom.mpr
    ⟨id, cell, body, Nat.zero_le _, by simpa, hb, rfl⟩)

@[simp] theorem routine?_entry :
    (emit c output o n).routine? (entryName o.programName) = some (entryRoutine c output o) := by
  refine Program.routine?_eq_some nodup_emit (r := entryRoutine c output o) ?_
  rw [emit_routines]
  exact List.mem_append_right _ (by simp)

omit [Scalar α] in
theorem findSome?_other_size_eq_none_iff :
    (c.cells.toList.findSome? fun cell => cell.inputSize?.filter (· ≠ n)) = none ↔
      ∀ k, .input k ∈ c.cells → k = n := by
  rw [List.findSome?_eq_none_iff]
  constructor
  · intro h k hk
    simpa [Cell.inputSize?, Option.filter] using h _ (Array.mem_toList_iff.mpr hk)
  · intro h cell hcell
    cases cell with
    | input k => simp [Cell.inputSize?, h k (Array.mem_toList_iff.mp hcell)]
    | _ => rfl

omit [Scalar α] in
theorem admits_eq_ok_iff :
    admits c output = .ok n ↔ c.inputSize? = some n ∧ output ≠ [] ∧ (∀ p ∈ output, c.Has p) ∧
      ∀ k, .input k ∈ c.cells → k = n := by
  rw [← Circuit.check_eq_ok_iff, ← findSome?_other_size_eq_none_iff]
  unfold admits
  cases hinput : c.inputSize? with
  | none => exact ⟨nofun, nofun⟩
  | some size =>
    simp only [pure_bind, Option.some.injEq]
    by_cases hne : output = []
    · simp only [if_pos hne]
      exact ⟨nofun, fun h => absurd hne h.2.1⟩
    · simp only [if_neg hne]
      cases hcheck : c.check output with
      | error e => exact ⟨nofun, fun h => nomatch h.2.2.1⟩
      | ok _ =>
        cases hother : c.cells.toList.findSome? fun cell => cell.inputSize?.filter (· ≠ size) with
        | some actual =>
          refine ⟨nofun, ?_⟩
          rintro ⟨rfl, -, -, hnone⟩
          rw [hother] at hnone
          cases hnone
        | none =>
          constructor
          · intro h
            cases h
            exact ⟨rfl, hne, rfl, hother⟩
          · rintro ⟨rfl, -⟩
            rfl

structure Admitted (c : Circuit α) (output : Bus) (n : Nat) : Prop where
  input : c.inputSize? = some n
  output : ∀ p ∈ output, c.Has p
  inputs : ∀ cell ∈ c.cells.toList, ∀ k, cell.inputSize? = some k → k = n

omit [Scalar α] in
theorem admitted_of_admits (h : admits c output = .ok n) : Admitted c output n := by
  obtain ⟨hinput, -, houtput, hinputs⟩ := admits_eq_ok_iff.mp h
  refine ⟨hinput, houtput, fun cell hcell k hk => ?_⟩
  rw [Cell.inputSize?_eq_some_iff] at hk
  exact hinputs k (hk ▸ Array.mem_toList_iff.mp hcell)

omit [Scalar α] in
theorem home_of_isInput {id : Nat} {cell : Cell α} (hc : c.cells[id]? = some cell)
    (h : cell.isInput = true) :
    (layoutOf c o).home id = 0 := by
  have := @home_input _ c.cells.toList 1 _ _ (by simpa using hc) h
  simp [layoutOf, Layout.home, this]

theorem home_of_not_isInput {id : Nat} {cell : Cell α} (hc : c.cells[id]? = some cell)
    (h : cell.isInput = false) :
    (layoutOf c o).home id ≠ 0 ∧ (layoutOf c o).home id < outputSegment c ∧
      (emit c output o n).segments[(layoutOf c o).home id]? = cellSegment? id cell := by
  obtain ⟨k, hk, hs⟩ := @home_own _ _ c.cells.toList 1 0 _ _ (by simpa using hc) h
  have hhome : (layoutOf c o).home id = k + 1 := by simp [layoutOf, Layout.home, hk, Nat.add_comm]
  have hlt : k < (ownSegments 0 c.cells.toList).length := by
    obtain ⟨seg, hseg, -⟩ := exists_cellSegment (0 + id) h
    exact (List.getElem?_eq_some_iff.mp (hs.trans hseg)).1
  rw [hhome]
  refine ⟨by omega, by simpa [outputSegment] using hlt, ?_⟩
  rw [emit_segments]
  simp only [List.getElem?_toArray, List.cons_append, List.getElem?_cons_succ]
  rw [List.getElem?_append_left hlt, hs, Nat.zero_add]

omit [Scalar α] in
theorem home_ne {id id' : Nat} (h : (layoutOf c o).home id ≠ 0) (hne : id' ≠ id) :
    (layoutOf c o).home id ≠ (layoutOf c o).home id' := by
  intro he
  have hsome : ∀ {i}, (layoutOf c o).home i ≠ 0 →
      (homes 1 c.cells.toList)[i]? = some ((layoutOf c o).home i) := by
    intro i hi
    simp only [layoutOf, Layout.home, List.getElem?_toArray] at hi ⊢
    cases hh : (homes 1 c.cells.toList)[i]? with
    | none => simp [hh] at hi
    | some a => rfl
  have h' := hsome (he ▸ h)
  rw [← he] at h'
  exact hne (home_injective (by decide) h h' (hsome h))

@[simp] theorem segments_zero :
    (emit c output o n).segments[0]? = some (.zeros "input" .input n) := by
  simp [emit_segments]

@[simp] theorem segments_output :
    (emit c output o n).segments[outputSegment c]? =
      some (.zeros "output" .output output.length) := by
  simp [emit_segments, outputSegment]

theorem initialMemory_home (ha : Admitted c output n) {id : Nat} {cell : Cell α}
    (hc : c.cells[id]? = some cell) :
    (emit c output o n).initialMemory[(layoutOf c o).home id]? = some cell.initial := by
  simp only [Program.initialMemory, Array.getElem?_map]
  cases h : cell.isInput with
  | true =>
    rw [home_of_isInput hc h, segments_zero]
    cases cell with
    | input k =>
      have hk := ha.inputs _ (List.mem_of_getElem? (by simpa using hc)) k rfl
      simp [Segment.zeros, Cell.initial, Cell.size, hk]
    | _ => cases h
  | false =>
    obtain ⟨seg, hseg, hcontents, -⟩ := exists_cellSegment id h
    rw [(home_of_not_isInput hc h).2.2, hseg, Option.map_some, hcontents]

theorem sizeOf_initialMemory (ha : Admitted c output n) {bound : Nat}
    (hcells : ∀ cell ∈ c.cells.toList, cell.size ≤ bound) (houtput : output.length ≤ bound)
    (s : Nat) :
    (emit c output o n).initialMemory.sizeOf s ≤ bound := by
  simp only [Program.initialMemory, Memory.sizeOf, Array.getElem?_map]
  cases hs : (emit c output o n).segments[s]? with
  | none => simp
  | some seg =>
    have hmem : seg ∈ (Segment.zeros "input" .input n :: ownSegments 0 c.cells.toList ++
        [Segment.zeros "output" .output output.length]) := by
      rw [emit_segments, List.getElem?_toArray] at hs
      exact List.mem_of_getElem? hs
    simp only [List.cons_append, List.mem_cons, List.mem_append, ownSegments,
      List.mem_filterMap, Prod.exists, List.mk_mem_zipIdx_iff_getElem?, List.not_mem_nil, or_false]
      at hmem
    rcases hmem with rfl | ⟨cell, id, hc, hseg⟩ | rfl
    · have := hcells _ (Array.mem_toList_iff.mpr (Circuit.input_mem ha.input))
      simpa [Segment.zeros, Cell.size] using this
    · have := hcells cell (List.mem_of_getElem? hc)
      rw [Option.map_some, Option.map_some, Option.getD_some, (contents_of_cellSegment? hseg).1,
        Cell.size_initial]
      exact this
    · simpa [Segment.zeros] using houtput

def Mirrors (c : Circuit α) (o : Options) (m : Memory α) (levels : Levels α) : Prop :=
  ∀ (id : Nat) (values : Array α), levels[id]? = some values →
  m[(layoutOf c o).home id]? = some values

/-- Memory shows a bus whose pins are of cells that have settled. -/
theorem Mirrors.shows {m : Memory α} {settled : Levels α} (h : Mirrors c o m settled) {s : Nat}
    {b : Bus} (hb : ∀ p ∈ b, s ≠ (layoutOf c o).home p.cell ∧
      ∃ values, settled[p.cell]? = some values ∧ p.element < values.size) :
    (layoutOf c o).Shows m settled s b := by
  intro p hp
  obtain ⟨hne, values, hv, hlt⟩ := hb p hp
  have hm := h _ _ hv
  refine ⟨hne, by rwa [Memory.sizeOf_eq hm], ?_⟩
  rw [Memory.value_eq hm, Levels.readPin, hv, Option.bind_some]

/-- The middle of a step: cells that have settled have their new values in memory, the others but
inputs their last ones. -/
structure Midway (c : Circuit α) (o : Options) (sample : List α) (last settled : Levels α)
    (m : Memory α) :
    Prop where
  handed : m[0]? = some sample.toArray
  done : Mirrors c o m settled
  ahead : ∀ (id : Nat) (cell : Cell α), settled.size ≤ id → c.cells[id]? = some cell →
    cell.isInput = false → ∀ values : Array α, last[id]? = some values →
      m[(layoutOf c o).home id]? = some values
  sizes : ∀ (id : Nat) (cell : Cell α) (values : Array α), c.cells[id]? = some cell →
    settled[id]? = some values → values.size = cell.size

namespace Midway

variable {sample : List α} {last settled : Levels α} {m m' : Memory α}

omit [Scalar α] in
theorem push (h : Midway c o sample last settled m) {cell : Cell α}
    (hc : c.cells[settled.size]? = some cell) {values : Array α} (hsize : values.size = cell.size)
    (hnew : m'[(layoutOf c o).home settled.size]? = some values)
    (hother : ∀ s, (layoutOf c o).home settled.size = 0 ∨ (layoutOf c o).home settled.size ≠ s →
      m'[s]? = m[s]?) : Midway c o sample last (settled.push values) m' := by
  have hne : ∀ id ≠ settled.size, m'[(layoutOf c o).home id]? = m[(layoutOf c o).home id]? := by
    intro id hid
    apply hother
    by_cases h0 : (layoutOf c o).home settled.size = 0
    · exact Or.inl h0
    · exact Or.inr (home_ne h0 hid)
  refine ⟨?_, ?_, ?_, ?_⟩
  · rw [hother 0 (by omega)]
    exact h.handed
  · intro id v hv
    rcases getElem?_push_eq_some_iff.mp hv with ⟨rfl, rfl⟩ | ⟨hid, hv⟩
    · exact hnew
    · rw [hne id hid]
      exact h.done id v hv
  · intro id cell' hle hc' hinput v hv
    rw [Array.size_push] at hle
    rw [hne id (by omega)]
    exact h.ahead id cell' (by omega) hc' hinput v hv
  · intro id cell' v hc' hv
    rcases getElem?_push_eq_some_iff.mp hv with ⟨rfl, rfl⟩ | ⟨-, hv⟩
    · rw [hc] at hc'
      cases hc'
      exact hsize
    · exact h.sizes id cell' v hc' hv

theorem shows (h : Midway c o sample last settled m) (hc : c.Sound) {cell : Cell α}
    (hcell : c.cells[settled.size]? = some cell) (h0 : (layoutOf c o).home settled.size ≠ 0)
    {b : Bus} (hb : b ∈ cell.sources) :
    (layoutOf c o).Shows m settled ((layoutOf c o).home settled.size) b := by
  refine h.done.shows fun p hp => ?_
  obtain ⟨hlt, src, hsrc, helement⟩ := hc.sources settled.size cell hcell b hb p hp
  have hv := Array.getElem?_eq_getElem hlt
  exact ⟨home_ne h0 (by omega), _, hv, h.sizes _ _ _ hsrc hv ▸ helement⟩

/-- What the code of the next cell does, or nothing if it has none. -/
theorem settle (h : Midway c o sample last settled m) (hc : c.Sound) {cell : Cell α}
    (hcell : c.cells[settled.size]? = some cell)
    (hsample : ∀ k, cell.inputSize? = some k → k = sample.length) {values : Array α}
    (hvalues : last[settled.size]? = some values) (hsize : values.size = cell.size)
    (hm : ∀ s, m.sizeOf s ≤ signBound) (depth : Nat) (name : String) (f : Frame α) :
    ∃ m', Exec.Ends (Block.exec ((emit c output o n).call (depth + 1)) name 0
          (((layoutOf c o).cellBody? settled.size cell).map
            fun _ => .call (cellRoutineName o.programName settled.size)).toList f) m m' ∧
      Midway c o sample last (settled.push (cell.settle settled sample values)) m' ∧
      m'.size = m.size ∧ ∀ s, m'.sizeOf s = m.sizeOf s := by
  have hnew := Cell.size_settle (hc.shape _ _ hcell) settled hsample hsize
  cases hbody : (layoutOf c o).cellBody? settled.size cell with
  | none =>
    refine ⟨m, Exec.ends_pure f m, h.push hcell hnew ?_ fun _ _ => rfl, rfl, fun _ => rfl⟩
    cases cell with
    | input k =>
      rw [home_of_isInput hcell rfl]
      exact h.handed
    | constant xs => exact h.ahead _ _ (Nat.le_refl _) hcell rfl _ hvalues
    | _ => simp [Layout.cellBody?] at hbody
  | some body =>
    have hinput : cell.isInput = false := by
      cases cell <;> simp_all [Layout.cellBody?, Cell.isInput]
    have h0 := (@home_of_not_isInput _ _ c output o n _ _ hcell hinput).1
    obtain ⟨m', hend, hown, hother, hshape⟩ := @Layout.cellBody_settles _ _ (layoutOf c o) m settled
      ((emit c output o n).call depth) (cellRoutineName o.programName settled.size) settled.size
      cell body hbody (hc.shape _ _ hcell) (fun b hb => h.shows hc hcell h0 hb) values
      (h.ahead _ _ (Nat.le_refl _) hcell hinput _ hvalues) hsize hm sample RegMap.empty
    refine ⟨m', ?_, h.push hcell hnew hown fun s hs => hother s (hs.resolve_left h0), hshape⟩
    have hcall : Exec.Ends ((emit c output o n).call (depth + 1)
        (cellRoutineName o.programName settled.size)) m m' :=
      Program.ends_call (routine?_cell hcell hbody) hend
    simp only [Option.map_some, Option.toList_some, Block.exec, Inst.exec, bind_assoc, pure_bind]
    exact hcall.bind fun _ => Exec.ends_pure f m'

/-- The calls of the entry routine settle the cells in order. -/
theorem settleAll (hc : c.Sound)
    (hsample : ∀ cell ∈ c.cells.toList, ∀ k, cell.inputSize? = some k → k = sample.length)
    (hfits : Simulator.Fits c last) (depth : Nat) (name : String) :
    ∀ {rest : List (Cell α)} {lasts : List (Array α)} {settled : Levels α} {m : Memory α}
      (f : Frame α), (∀ i cell, rest[i]? = some cell → c.cells[settled.size + i]? = some cell) →
      (∀ i values, lasts[i]? = some values → last[settled.size + i]? = some values) →
      rest.length = lasts.length → Midway c o sample last settled m →
      (∀ s, m.sizeOf s ≤ signBound) →
      ∃ m', Exec.Ends (Block.exec ((emit c output o n).call (depth + 1)) name 0
            (((layoutOf c o).routinesFrom o.programName settled.size rest).map fun r =>
              .call r.name) f) m m' ∧
        Midway c o sample last (Simulator.settleAll sample settled rest lasts) m' ∧
        m'.size = m.size ∧ ∀ s, m'.sizeOf s = m.sizeOf s
  | [], [], settled, m, f, _, _, _, h, _ => ⟨m, Exec.ends_pure f m, h, rfl, fun _ => rfl⟩
  | cell :: rest, values :: lasts, settled, m, f, hrest, hlasts, hlen, h, hm => by
    have hcell : c.cells[settled.size]? = some cell := hrest 0 cell rfl
    have hvalues : last[settled.size]? = some values := hlasts 0 values rfl
    obtain ⟨m₁, hend₁, h₁, hsize₁, hsizes₁⟩ := @settle _ _ c output o n _ _ _ _ h hc _ hcell
      (hsample cell (List.mem_of_getElem? (by simpa using hcell))) _ hvalues
      (hfits.sizes _ _ _ hcell hvalues) hm depth name f
    have hcalls : (((layoutOf c o).routinesFrom o.programName settled.size (cell :: rest)).map
          fun r => (.call r.name : Inst α)) =
        (((layoutOf c o).cellBody? settled.size cell).map
            fun _ => .call (cellRoutineName o.programName settled.size)).toList ++
          ((layoutOf c o).routinesFrom o.programName (settled.size + 1) rest).map fun r =>
            .call r.name := by
      rw [Layout.routinesFrom_cons, List.map_append]
      cases (layoutOf c o).cellBody? settled.size cell <;> rfl
    obtain ⟨f₁, hf₁⟩ := hend₁
    have hsize : (settled.push (cell.settle settled sample values)).size = settled.size + 1 := by
      simp
    obtain ⟨m₂, hend₂, h₂, hsize₂, hsizes₂⟩ := settleAll hc hsample hfits depth name f₁
      (fun i cell' hi => by rw [hsize, Nat.add_right_comm, Nat.add_assoc]
                            exact hrest (i + 1) cell' (by simpa using hi))
      (fun i v hi => by rw [hsize, Nat.add_right_comm, Nat.add_assoc]
                        exact hlasts (i + 1) v (by simpa using hi))
      (by simpa using hlen) h₁ (fun s => hsizes₁ s ▸ hm s)
    refine ⟨m₂, ?_, h₂, hsize₂.trans hsize₁, fun s => (hsizes₂ s).trans (hsizes₁ s)⟩
    rw [hcalls, Block.exec_append]
    rw [hsize] at hend₂
    obtain ⟨f₂, hf₂⟩ := hend₂
    exact ⟨f₂, (Exec.bind_of_ok hf₁ _).trans hf₂⟩
  | [], _ :: _, _, _, _, _, _, hlen, _, _ => absurd hlen (by simp)
  | _ :: _, [], _, _, _, _, _, hlen, _, _ => absurd hlen (by simp)

end Midway

@[simp] theorem segmentOf?_input : (emit c output o n).segmentOf? .input = some 0 := by
  rw [Program.segmentOf?, Array.findIdx?_eq_some_iff_getElem]
  exact ⟨by simp [emit_segments], by simp [emit_segments, Segment.zeros], fun j hj => by omega⟩

@[simp] theorem segmentOf?_output :
    (emit c output o n).segmentOf? .output = some (outputSegment c) := by
  rw [Program.segmentOf?, Array.findIdx?_eq_some_iff_getElem]
  refine ⟨by simp [emit_segments, outputSegment],
    by simp [emit_segments, outputSegment, Segment.zeros], ?_⟩
  intro j hj
  simp only [emit_segments, List.getElem_toArray, List.cons_append]
  cases j with
  | zero => simp [Segment.zeros]
  | succ j =>
    have hj : j < (ownSegments 0 c.cells.toList).length := by simpa [outputSegment] using hj
    simp only [List.getElem_cons_succ, List.getElem_append_left hj]
    obtain ⟨⟨cell, id⟩, -, hseg⟩ := List.mem_filterMap.mp (List.getElem_mem hj)
    simpa using (contents_of_cellSegment? hseg).2.2

/-- The memory of a program that has been through runs: of the sizes that it started with. -/
structure Shaped (p : Program α) (m : Memory α) : Prop where
  size_eq : m.size = p.initialMemory.size
  sizeOf_eq : ∀ s, m.sizeOf s = p.initialMemory.sizeOf s

omit [Scalar α] in
theorem Shaped.trans {p : Program α} {m m' : Memory α} (h : Shaped p m) (hs : m'.size = m.size)
    (hz : ∀ s, m'.sizeOf s = m.sizeOf s) : Shaped p m' :=
  ⟨hs.trans h.size_eq, fun s => (hz s).trans (h.sizeOf_eq s)⟩

/-- Every segment is as large as its cell, the first as large as a sample and the last as the
output. -/
@[simp] theorem sizeOf_zero : (emit c output o n).initialMemory.sizeOf 0 = n := by
  simp [Program.initialMemory, Memory.sizeOf, Segment.zeros]

@[simp] theorem sizeOf_output :
    (emit c output o n).initialMemory.sizeOf (outputSegment c) = output.length := by
  simp [Program.initialMemory, Memory.sizeOf, Segment.zeros]

omit [Scalar α] in
theorem sizeOf_handIn {m : Memory α} {sample : List α} (h : sample.length = m.sizeOf 0) (s : Nat) :
    Memory.sizeOf (m.setIfInBounds 0 sample.toArray) s = m.sizeOf s := by
  simp only [Memory.sizeOf, Array.getElem?_setIfInBounds] at h ⊢
  by_cases hs : 0 = s
  · subst hs
    by_cases hlt : 0 < m.size <;> simp_all
  · simp [hs]

theorem midway_handIn {m : Memory α} {levels : Levels α}
    (hmirrors : Mirrors c o m levels) (hm : Shaped (emit c output o n) m) (sample : List α) :
    Midway c o sample levels #[] (m.setIfInBounds 0 sample.toArray) := by
  have hlt : 0 < m.size := by simp [hm.size_eq, Program.initialMemory, emit_segments]
  refine ⟨by simp [hlt], fun id values hv => by simp at hv, ?_,
    fun id cell values _ hv => by simp at hv⟩
  intro id cell _ hc hinput values hv
  have h0 := (@home_of_not_isInput _ _ c output o n _ _ hc hinput).1
  rw [Array.getElem?_setIfInBounds, if_neg (Ne.symm h0)]
  exact hmirrors id values hv

theorem home_lt_outputSegment {id : Nat} {cell : Cell α} (hc : c.cells[id]? = some cell) :
    (layoutOf c o).home id < outputSegment c := by
  cases h : cell.isInput with
  | true =>
    rw [home_of_isInput hc h]
    exact Nat.succ_pos _
  | false => exact (@home_of_not_isInput _ _ c [] o 0 _ _ hc h).2.1

/-- A call of the entry routine settles all cells and hands out what the output bus carries. -/
theorem entry_ends (hc : c.Sound) (ha : Admitted c output n)
    (hcells : ∀ cell ∈ c.cells.toList, cell.size ≤ signBound) (houtput : output.length ≤ signBound)
    {m : Memory α} {levels : Levels α} (hmirrors : Mirrors c o m levels)
    (hm : Shaped (emit c output o n) m) (hfits : Simulator.Fits c levels) {sample : List α}
    (hsample : sample.length = n) (depth : Nat) :
    ∃ m', Exec.Ends ((emit c output o n).call (depth + 2) (entryName o.programName))
        (m.setIfInBounds 0 sample.toArray) m' ∧
      m'[outputSegment c]? =
        some (Levels.read (Simulator.settleAll sample #[] c.cells.toList levels.toList)
          output).toArray ∧
      Mirrors c o m' (Simulator.settleAll sample #[] c.cells.toList levels.toList) ∧
      Simulator.Fits c (Simulator.settleAll sample #[] c.cells.toList levels.toList) ∧
      Shaped (emit c output o n) m' := by
  have hlen : c.cells.toList.length = levels.toList.length := by simp [hfits.size_eq]
  generalize hsettled : Simulator.settleAll sample #[] c.cells.toList levels.toList = settled
  have hbound : ∀ s, m.sizeOf s ≤ signBound := fun s =>
    hm.sizeOf_eq s ▸ sizeOf_initialMemory ha hcells houtput s
  have hin : sample.length = m.sizeOf 0 := by rw [hsample, hm.sizeOf_eq, sizeOf_zero]
  obtain ⟨m₁, ⟨f, hf⟩, h₁, hsize₁, hsizes₁⟩ := @Midway.settleAll _ _ c output o n sample levels hc
    (fun cell hcell k hk => (ha.inputs cell hcell k hk).trans hsample.symm) hfits depth
    (entryName o.programName) _ _ #[] _ RegMap.empty (fun i cell hi => by simpa using hi)
    (fun i values hi => by simpa using hi) hlen (midway_handIn hmirrors hm sample)
    (fun s => sizeOf_handIn hin s ▸ hbound s)
  rw [hsettled] at h₁
  have hshape₁ := (hm.trans (by simp) (sizeOf_handIn hin)).trans hsize₁ hsizes₁
  have hfits₁ : Simulator.Fits c settled :=
    ⟨by rw [← hsettled, Simulator.size_settleAll hlen]; simp, h₁.sizes⟩
  have hshows : (layoutOf c o).Shows m₁ settled (outputSegment c) output := by
    refine h₁.done.shows fun p hp => ?_
    obtain ⟨src, hsrc, hlt⟩ := ha.output p hp
    obtain ⟨values, hv, hsize⟩ := hfits₁.exists_values hsrc
    exact ⟨Nat.ne_of_gt (home_lt_outputSegment hsrc), values, hv, hsize ▸ hlt⟩
  have hsizeOut : m₁.sizeOf (outputSegment c) = output.length := by
    rw [hshape₁.sizeOf_eq, sizeOf_output]
  have hcopy := @Layout.copy_ends _ _ ((emit c output o n).call (depth + 1))
    (entryName o.programName) m₁ (layoutOf c o) (outputSegment c) output hshows.ready
    (Nat.le_of_eq hsizeOut.symm)
    (fun s => hshape₁.sizeOf_eq s ▸ sizeOf_initialMemory ha hcells houtput s) 0 f
  refine ⟨m₁.writes (outputSegment c) id ((layoutOf c o).busValue m₁ output) output.length,
    Program.ends_call routine?_entry ?_, ?_, ?_, hfits₁, hshape₁.trans (by simp) (by simp)⟩
  · show Exec.Ends (Block.exec _ _ 0 (_ ++ _) _) _ _
    rw [Block.exec_append]
    obtain ⟨f', hf'⟩ := hcopy
    exact ⟨f', (Exec.bind_of_ok hf _).trans hf'⟩
  · refine Memory.getElem?_eq_of_values ?_ (by simp [hsizeOut]) ?_
    · rw [Memory.size_writes, hshape₁.size_eq]
      simp [Program.initialMemory, emit_segments, outputSegment]
    · intro i hi
      have hi : i < output.length := by simpa using hi
      rw [Memory.value_writes_id hi (by rwa [hsizeOut]), hshows.busValue_eq hi]
      simp [Levels.read]
  · intro id values hv
    have hid : id < c.cells.size := hfits₁.size_eq ▸ (Array.getElem?_eq_some_iff.mp hv).1
    rw [Memory.getElem?_writes_of_ne
      (Nat.ne_of_gt (home_lt_outputSegment (Array.getElem?_eq_getElem hid)))]
    exact h₁.done id values hv

/-- A machine and a simulator have seen the same samples. -/
structure InStep (c : Circuit α) (output : Bus) (o : Options) (n : Nat) (m : Machine α)
    (s : Simulator α) :
    Prop where
  program : m.program = emit c output o n
  circuit : s.circuit = c
  runs : m.runs = s.steps
  shaped : Shaped (emit c output o n) m.memory
  mirrors : Mirrors c o m.memory s.levels
  fits : Simulator.Fits c s.levels

theorem inStep_start (ha : Admitted c output n) :
    InStep c output o n (.ofProgram (emit c output o n)) (.ofCircuit c) := by
  refine ⟨rfl, rfl, rfl, ⟨rfl, fun _ => rfl⟩, fun id values hv => ?_, Simulator.fits_ofCircuit c⟩
  simp only [Simulator.ofCircuit, Array.getElem?_map, Option.map_eq_some_iff] at hv
  obtain ⟨cell, hc, rfl⟩ := hv
  exact initialMemory_home ha hc

/-- What both say to a sample, in whatever state they are. -/
theorem InStep.step (hc : c.Sound) (ha : Admitted c output n)
    (hcells : ∀ cell ∈ c.cells.toList, cell.size ≤ signBound) (houtput : output.length ≤ signBound)
    {m : Machine α} {s : Simulator α} (h : InStep c output o n m s) (sample : List α) :
    (∃ values m' s', m.run (entryName o.programName) sample = (.ok values, m') ∧
        s.observe sample output = .ok (values, s') ∧ InStep c output o n m' s') ∨
      ∃ e e', m.admits sample = .error e ∧ m.run (entryName o.programName) sample = (.error e, m) ∧
        s.observe sample output = .error e' := by
  have hsize : m.memory.sizeOf 0 = n := by rw [h.shaped.sizeOf_eq, sizeOf_zero]
  have hobserve : s.observe sample output = (do
      let s' ← s.step sample
      return (s'.read output, s')) := by
    simp only [Simulator.observe, h.circuit, Circuit.check_eq_ok_iff.mpr ha.output]
    rfl
  by_cases hsample : sample.length = n
  · left
    obtain ⟨m', ⟨⟨⟩, hend⟩, hout, hmirrors, hfits, hshaped⟩ :=
      @entry_ends _ _ c output o n hc ha hcells houtput _ _ h.mirrors h.shaped h.fits _ hsample 62
    have hadmits : m.admits sample = .ok (0, outputSegment c) := by
      simp [Machine.admits, h.program, hsize, hsample]
    have hcheck : Simulator.checkSample s.circuit sample = .ok () := by
      rw [h.circuit, Simulator.checkSample_eq_ok_iff]
      exact ⟨by simp [ha.input],
        fun cell hcell k hk => (ha.inputs cell hcell k hk).trans hsample.symm⟩
    have hcall : ({ m with memory := m.memory.setIfInBounds 0 sample.toArray } : Machine α).call
        (entryName o.programName) = (.ok (), { m with memory := m' }) := by
      simp only [Machine.call, h.program]
      rw [show callLimit = 62 + 2 from rfl, hend]
    refine ⟨Levels.read (Simulator.settleAll sample #[] c.cells.toList s.levels.toList) output,
      { m with memory := m', runs := m.runs + 1 },
      { s with
        levels := Simulator.settleAll sample #[] c.cells.toList s.levels.toList
        steps := s.steps + 1 }, ?_, ?_,
      ⟨h.program, h.circuit, congrArg (· + 1) h.runs, hshaped, hmirrors, hfits⟩⟩
    · simp only [Machine.run, hadmits, hcall, Machine.segment?, hout]
      rfl
    · rw [hobserve, Simulator.step, hcheck, h.circuit]
      rfl
  · right
    have hadmits : m.admits sample = .error (.inputSize n sample.length) := by
      simp [Machine.admits, h.program, hsize, hsample]
    have hcheck : Simulator.checkSample s.circuit sample ≠ .ok () := by
      rw [h.circuit, Ne, Simulator.checkSample_eq_ok_iff]
      rintro ⟨-, hsizes⟩
      exact hsample (hsizes _ (Array.mem_toList_iff.mpr (Circuit.input_mem ha.input)) n rfl).symm
    obtain ⟨e, he⟩ : ∃ e, Simulator.checkSample s.circuit sample = .error e := by
      cases hr : Simulator.checkSample s.circuit sample with
      | ok _ => exact absurd hr hcheck
      | error e => exact ⟨e, rfl⟩
    refine ⟨.inputSize n sample.length, e, hadmits, by simp only [Machine.run, hadmits], ?_⟩
    rw [hobserve, Simulator.step, he]
    rfl

end Codegen

variable [Scalar α]

def Machine.feed (m : Machine α) (entry : String) (samples : List (List α)) : Machine α :=
  samples.foldl (fun m sample => (m.run entry sample).2) m

def Simulator.feed (s : Simulator α) (output : Bus) (samples : List (List α)) : Simulator α :=
  samples.foldl (fun s sample => match s.observe sample output with
    | .ok (_, s') => s'
    | .error _ => s) s

namespace Codegen

theorem InStep.feed {c : Circuit α} {output : Bus} {o : Options} {n : Nat} (hc : c.Sound)
    (ha : Admitted c output n) (hcells : ∀ cell ∈ c.cells.toList, cell.size ≤ signBound)
    (houtput : output.length ≤ signBound) {m : Machine α} {s : Simulator α}
    (h : InStep c output o n m s) (samples : List (List α)) :
    InStep c output o n (m.feed (entryName o.programName) samples) (s.feed output samples) := by
  induction samples generalizing m s with
  | nil => exact h
  | cons sample samples ih =>
    simp only [Machine.feed, Simulator.feed, List.foldl_cons] at ih ⊢
    rcases h.step hc ha hcells houtput sample with ⟨_, m', s', hm, hs, h'⟩ | ⟨e, e', -, hm, hs⟩
    · rw [hm, hs]
      exact ih h'
    · rw [hm, hs]
      exact ih h

/-- After any samples, those refused included, every cell's segment holds what the cell shows; and
to the next sample machine and simulator give the same answer or both refuse it, a refusal changing
neither. Segments have to be no larger than what signed words can tell apart. -/
theorem program_simulates {c : Circuit α} (hc : c.Built) {output : Bus} {o : Options}
    {p : Program α} (hp : program c output o = .ok p)
    (hcells : ∀ cell ∈ c.cells.toList, cell.size ≤ signBound) (houtput : output.length ≤ signBound)
    (samples : List (List α)) :
    (∀ (id : Nat) (cell : Cell α), c.cells[id]? = some cell →
      ∃ values, ((Simulator.ofCircuit c).feed output samples).levels[id]? = some values ∧
        values.size = cell.size ∧
        ((Machine.ofProgram p).feed (entryName o.programName) samples).segment?
          ((layoutOf c o).home id) = some values.toList) ∧
      ∀ sample,
        match ((Machine.ofProgram p).feed (entryName o.programName) samples).run
            (entryName o.programName) sample,
          ((Simulator.ofCircuit c).feed output samples).observe sample output with
        | (.ok values, _), .ok (values', _) => values = values'
        | (.error _, m), .error _ =>
          m = (Machine.ofProgram p).feed (entryName o.programName) samples
        | _, _ => False := by
  obtain ⟨n, ha, hp⟩ := ok_of_bind hp
  cases hp
  have ha := admitted_of_admits ha
  have h := (inStep_start (o := o) ha).feed hc.sound ha hcells houtput samples
  constructor
  · intro id cell hid
    obtain ⟨values, hv, hsize⟩ := h.fits.exists_values hid
    exact ⟨values, hv, hsize, by simp [Machine.segment?, h.mirrors id values hv]⟩
  · intro sample
    rcases h.step hc.sound ha hcells houtput sample with ⟨values, m', s', hm, hs, -⟩ |
      ⟨e, e', -, hm, hs⟩
    · simp only [hm, hs]
    · simp only [hm, hs]

/-- Sums up by how much two values have moved within two steps. -/
def drift : Circuit Float := .ofCells #[.input 2, .delay [⟨0, 0⟩, ⟨0, 1⟩] 3,
  .binary .sub [⟨1, 0⟩, ⟨1, 1⟩] [⟨1, 4⟩, ⟨1, 5⟩], .accumulator [⟨2, 1⟩, ⟨2, 0⟩]]

theorem built_drift : drift.Built := by
  have h0 : (Circuit.ofCells #[] : Circuit Float).Built := Circuit.built_ofCells_empty
  refine Circuit.built_ofCells_push (Circuit.built_ofCells_push (Circuit.built_ofCells_push
    (Circuit.built_ofCells_push h0 rfl ?_) rfl ?_) rfl ?_) rfl ?_
  all_goals simp [Cell.sources, Circuit.Has, Circuit.ofCells, Cell.size]

/-- One of the three samples is too short. -/
theorem program_simulates_drift :
    drift.Built ∧ program drift [⟨3, 0⟩] {} = .ok (emit drift [⟨3, 0⟩] {} 2) ∧
      (∀ cell ∈ drift.cells.toList, cell.size ≤ signBound) ∧ [(⟨3, 0⟩ : Pin)].length ≤ signBound ∧
      ∃ values,
        ((Simulator.ofCircuit drift).feed [⟨3, 0⟩] [[1, 2], [3], [4, 5]]).levels[1]? = some values ∧
        ((Machine.ofProgram (emit drift [⟨3, 0⟩] {} 2)).feed "features_predict"
          [[1, 2], [3], [4, 5]]).segment? 1 = some values.toList := by
  have hp : program drift [⟨3, 0⟩] {} = .ok (emit drift [⟨3, 0⟩] {} 2) := by
    have hc : drift.check [⟨3, 0⟩] = .ok () :=
      Circuit.check_eq_ok_iff.mpr (by simp [Circuit.Has, drift, Circuit.ofCells, Cell.size])
    have hi : drift.inputSize? = some 2 := by
      simp [Circuit.inputSize?, drift, Circuit.ofCells]
      rfl
    simp only [program, admits, hc, hi]
    simp [drift, Circuit.ofCells, Cell.inputSize?]
    rfl
  have hcells : ∀ cell ∈ drift.cells.toList, cell.size ≤ signBound := by
    simp [drift, Circuit.ofCells, Cell.size, signBound]
  have houtput : [(⟨3, 0⟩ : Pin)].length ≤ signBound := by simp [signBound]
  obtain ⟨values, hv, -, hs⟩ :=
    (program_simulates built_drift hp hcells houtput [[1, 2], [3], [4, 5]]).1 1
    (.delay [⟨0, 0⟩, ⟨0, 1⟩] 3) rfl
  exact ⟨built_drift, hp, hcells, houtput, values, hv, hs⟩

end Codegen
end StreamStats
