import StreamStats.Proofs.Grafting
import StreamStats.Proofs.Lists

/-! What a caller sees of a machine, use after use: the answers, and all of memory. Programs that
differ in routines that do alike show the same. -/

namespace StreamStats

open Exec

variable {α : Type}

def Likeness.exact (segments : Array (Segment α)) : Likeness α :=
  ⟨True, Eq, Memory.Fits segments, fun _ => rfl⟩

theorem Exec.Mirrors.eq_of_exact {segments : Array (Segment α)}
    {r r' : EStateM.Result Fault (Memory α) Unit} {P : Unit → Unit → Prop}
    (h : Mirrors (.exact segments) P r r') : r' = r ∧ (final r).Fits segments := by
  cases h with
  | ok _ memory => exact ⟨rfl, memory⟩
  | @error e e' m fault memory =>
    obtain rfl : e = e' := fault
    exact ⟨rfl, memory⟩
  | lax h => exact absurd trivial h

theorem Memory.Fits.write {segments : Array (Segment α)} {m : Memory α} (h : m.Fits segments)
    {s : Nat} {seg : Segment α} (hs : segments[s]? = some seg) (hw : seg.role.isWritable = true)
    (i : Nat) (v : α) :
    Memory.Fits segments (m.write s i v) := by
  refine h.keeps ⟨by simp, by simp, fun t seg' ht hw' => ?_⟩
  rw [getElem?_write, if_neg]
  rintro rfl
  rw [hs] at ht
  cases ht
  simp [hw] at hw'

theorem Inst.Admitted.keeps_exact {context : Context α} {lanes : Reg → Nat}
    {shape : Option Check.Shape} {inst : Inst α} (h : inst.Admitted context lanes shape) :
    inst.Keeps (Likeness.exact context.segments).memories shape := by
  cases inst with
  | store dst x n =>
    obtain ⟨s, hs, hw, -⟩ := Check.access_eq_ok_iff.mp h.1
    exact fun m i v hm => Memory.Fits.write hm hs (hw rfl) i v
  | _ => trivial

variable [Scalar α] {like : Likeness α}

structure Routine.Mirrors (like : Likeness α) (r r' : Routine α) : Prop where
  name_eq : r'.name = r.name
  body : ∀ call call', CallsMirror like call call' → ∀ m, like.memories m →
    Exec.Mirrors like (fun _ _ => True) (Block.exec call r.name 0 r.body RegMap.empty m)
      (Block.exec call' r.name 0 r'.body RegMap.empty m)

theorem Routine.Accepted.mirrors_self {context : Context α} {r : Routine α}
    (h : r.Accepted context) :
    r.Mirrors (.exact context.segments) r := by
  obtain ⟨lanes, hl⟩ := h.admitted
  refine ⟨rfl, fun call call' hcall m hm => ?_⟩
  have hself : Exec.Mirrors (.exact context.segments) (Frame.Renames id _)
      (Block.exec call r.name 0 r.body RegMap.empty m)
      (Block.exec call' r.name 0 (Block.rename id r.body) RegMap.empty m) :=
    Block.mirrors_rename hcall (fun _ => rfl) (hl.imp fun _ _ hi => hi.keeps_exact) h.reads
    (fun _ _ _ _ he => he) (fun _ _ => rfl) hm
  rw [Block.rename_id] at hself
  exact hself.imp fun _ _ _ => trivial

namespace Program

theorem find?_of_mirrors {rs rs' : List (Routine α)}
    (h : List.Forall₂ (Routine.Mirrors like) rs rs') (name : String) :
    Option.Rel (Routine.Mirrors like) (rs.find? fun r => r.name == name) (rs'.find? fun r =>
      r.name == name) := by
  induction h with
  | nil => exact .none
  | @cons a b as bs hab _ ih =>
    by_cases ha : a.name = name
    · rw [List.find?_cons_of_pos (by simpa using ha),
        List.find?_cons_of_pos (by simpa [hab.name_eq] using ha)]
      exact .some hab
    · rwa [List.find?_cons_of_neg (by simpa using ha),
        List.find?_cons_of_neg (by simpa [hab.name_eq] using ha)]

/-- Routines that do alike one by one make calls do alike, however deep they nest. -/
theorem callsMirror {p q : Program α}
    (h : List.Forall₂ (Routine.Mirrors like) p.routines q.routines) (depth : Nat) :
    CallsMirror like (p.call depth) (q.call depth) := by
  induction depth with
  | zero => exact fun _ _ hm => .error (like.faults_refl _) hm
  | succ depth ih =>
    intro name m hm
    have hrel := find?_of_mirrors h name
    change Option.Rel _ (p.routine? name) (q.routine? name) at hrel
    simp only [call]
    cases hr : p.routine? name with
    | none =>
      rw [hr] at hrel
      generalize q.routine? name = r' at hrel
      cases hrel
      exact .error (like.faults_refl _) hm
    | some r =>
      rw [hr] at hrel
      generalize q.routine? name = r' at hrel
      cases hrel with
      | some hi =>
        have hname : r.name = name := name_of_routine? hr
        have hbody := hi.body _ _ ih m hm
        rw [hname] at hbody
        exact hbody.bind fun _ _ _ _ hm' => .ok trivial hm'

end Program

namespace Machine

/-- A use of a machine. -/
inductive Use (α : Type) where
  | call (name : String)
  | run (entry : String) (input : List α)
  | reset

/-- What a use answers, a run with the output, and the machine behind it. -/
def use (m : Machine α) : Use α → Except Fault (Option (List α)) × Machine α
  | .call name => ((m.call name).1.map fun _ => none, (m.call name).2)
  | .run entry input => ((m.run entry input).1.map some, (m.run entry input).2)
  | .reset => (.ok none, m.reset)

/-- The answers to uses one after another, with the memory and the number of runs behind each. -/
def shows (m : Machine α) : List (Use α) → List (Except Fault (Option (List α)) × Memory α × Nat)
  | [] => []
  | u :: us => ((m.use u).1, (m.use u).2.memory, (m.use u).2.runs) :: shows (m.use u).2 us

variable {p q : Program α}

structure Paired (p q : Program α) (m n : Machine α) : Prop where
  left : m.program = p
  right : n.program = q
  memory : n.memory = m.memory
  runs : n.runs = m.runs
  fits : m.memory.Fits p.segments

section Paired

variable (hs : q.segments = p.segments)
  (hcalls : CallsMirror (.exact p.segments) (p.call callLimit) (q.call callLimit)) {m n : Machine α}

include hcalls in
theorem Paired.call (h : Paired p q m n) (name : String) :
    (n.call name).1 = (m.call name).1 ∧ Paired p q (m.call name).2 (n.call name).2 := by
  obtain ⟨rfl, rfl, hmemory, hruns, hfits⟩ := h
  obtain ⟨heq, hfinal⟩ := (hcalls name m.memory hfits).eq_of_exact
  unfold Machine.call
  rw [hmemory, heq]
  cases hx : m.program.call callLimit name m.memory with
  | ok u m' => exact ⟨rfl, rfl, rfl, rfl, hruns, by rwa [hx] at hfinal⟩
  | error e m' => exact ⟨rfl, rfl, rfl, rfl, hruns, by rwa [hx] at hfinal⟩

include hs in
omit [Scalar α] in
theorem Paired.admits (h : Paired p q m n) (input : List α) : n.admits input = m.admits input := by
  obtain ⟨rfl, rfl, hmemory, -, -⟩ := h
  have hsegment : ∀ role, n.program.segmentOf? role = m.program.segmentOf? role := by
    simp [Program.segmentOf?, hs]
  simp only [Machine.admits, hsegment, hmemory]

include hs hcalls in
theorem Paired.run (h : Paired p q m n) (entry : String) (input : List α) :
    (n.run entry input).1 = (m.run entry input).1 ∧
    Paired p q (m.run entry input).2 (n.run entry input).2 := by
  unfold Machine.run
  rw [h.admits hs]
  cases ha : m.admits input with
  | error e => exact ⟨rfl, h⟩
  | ok places =>
    obtain ⟨source, target⟩ := places
    have hin : Paired p q { m with memory := m.memory.setIfInBounds source input.toArray }
        { n with memory := n.memory.setIfInBounds source input.toArray } :=
      ⟨h.left, h.right, by rw [h.memory], h.runs, fits_handIn (congrArg _ h.left) h.fits ha⟩
    obtain ⟨heq, hpaired⟩ := hin.call hcalls entry
    generalize hx : ({ m with memory := m.memory.setIfInBounds source input.toArray } : Machine
      α).call entry = x at heq hpaired
    generalize hy : ({ n with memory := n.memory.setIfInBounds source input.toArray } : Machine
      α).call entry = y at heq hpaired
    obtain ⟨result, m'⟩ := x
    obtain ⟨result', n'⟩ := y
    obtain rfl : result' = result := heq
    simp only [hx, hy]
    cases result' with
    | error e => exact ⟨rfl, hpaired⟩
    | ok _ =>
      have hmemory : n'.memory = m'.memory := hpaired.memory
      refine ⟨?_, hpaired.left, hpaired.right, hmemory, congrArg (· + 1) hpaired.runs, hpaired.fits⟩
      simp only [segment?, hmemory]

include hs in
omit [Scalar α] in
theorem Paired.reset (h : Paired p q m n) : Paired p q m.reset n.reset := by
  obtain ⟨rfl, rfl, -, -, -⟩ := h
  have hmemory : n.program.initialMemory = m.program.initialMemory := by
    simp [Program.initialMemory, hs]
  exact ⟨rfl, rfl, hmemory, rfl, m.program.fits_initialMemory⟩

include hs hcalls in
theorem Paired.use (h : Paired p q m n) (u : Use α) :
    (n.use u).1 = (m.use u).1 ∧ Paired p q (m.use u).2 (n.use u).2 := by
  cases u with
  | call name =>
    obtain ⟨heq, hpaired⟩ := h.call hcalls name
    exact ⟨congrArg (Except.map fun _ => none) heq, hpaired⟩
  | run entry input =>
    obtain ⟨heq, hpaired⟩ := h.run hs hcalls entry input
    exact ⟨congrArg (Except.map some) heq, hpaired⟩
  | reset => exact ⟨rfl, h.reset hs⟩

include hs hcalls in
theorem Paired.shows (h : Paired p q m n) (uses : List (Use α)) : n.shows uses = m.shows uses := by
  induction uses generalizing m n with
  | nil => rfl
  | cons u us ih =>
    obtain ⟨heq, hpaired⟩ := h.use hs hcalls u
    rw [Machine.shows, Machine.shows, ih hpaired, heq, hpaired.memory, hpaired.runs]

end Paired

/-- Where calls do alike, fresh machines show the same to every caller. -/
theorem shows_eq (hs : q.segments = p.segments)
    (hcalls : CallsMirror (.exact p.segments) (p.call callLimit) (q.call callLimit))
    (uses : List (Use α)) :
    (ofProgram q).shows uses = (ofProgram p).shows uses := by
  have hmemory : q.initialMemory = p.initialMemory := by simp [Program.initialMemory, hs]
  have hpaired : Paired p q (ofProgram p) (ofProgram q) :=
    ⟨rfl, rfl, hmemory, rfl, p.fits_initialMemory⟩
  exact hpaired.shows hs hcalls uses

/-- One routine of accepted ones is rewritten into one that does alike. -/
theorem shows_rewriteAt (haccepted : ∀ r ∈ p.routines, r.Accepted p.context) {index : Nat}
    {f : Routine α → Routine α}
    (hf : ∀ r, p.routines[index]? = some r → r.Mirrors (.exact p.segments) (f r))
    (uses : List (Use α)) :
    (ofProgram (p.rewriteAt index f)).shows uses = (ofProgram p).shows uses := by
  have hroutines : List.Forall₂ (Routine.Mirrors (.exact p.segments)) p.routines
      (p.rewriteAt index f).routines :=
    forall₂_modify_self (fun r hr => (haccepted r hr).mirrors_self) hf
  exact shows_eq (p := p) (q := p.rewriteAt index f) rfl (Program.callsMirror hroutines callLimit)
    uses

end Machine
end StreamStats
