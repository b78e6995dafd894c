import Mathlib.Algebra.Order.BigOperators.Group.List
import StreamStats.Proofs.Swept
import StreamStats.Proofs.Uses

/-! Dead stores of any program, checked or not. What is left out is written to scratch segments that
nothing loads from. With every round there may be more of them, but none is read again; machines
over the program before and behind all rounds agree on every other segment, use after use. -/

namespace StreamStats

open Exec

variable {α : Type}

structure Memory.AgreeOff (D : Set Nat) (m n : Memory α) : Prop where
  size_eq : n.size = m.size
  sizeOf_eq : ∀ s, n.sizeOf s = m.sizeOf s
  eq : ∀ s ∉ D, n[s]? = m[s]?

namespace Memory
namespace AgreeOff

variable {D E : Set Nat} {m n k : Memory α}

@[simp] theorem refl (m : Memory α) : AgreeOff D m m := ⟨rfl, fun _ => rfl, fun _ _ => rfl⟩

theorem trans (h : AgreeOff D m n) (h' : AgreeOff D n k) : AgreeOff D m k :=
  ⟨h'.size_eq.trans h.size_eq, fun s => (h'.sizeOf_eq s).trans (h.sizeOf_eq s),
    fun s hs => (h'.eq s hs).trans (h.eq s hs)⟩

theorem mono (hDE : D ⊆ E) (h : AgreeOff D m n) : AgreeOff E m n :=
  ⟨h.size_eq, h.sizeOf_eq, fun s hs => h.eq s fun hD => hs (hDE hD)⟩

theorem writeFrom (h : AgreeOff D m n) (dst : Address) (count : Nat) (values : List α) :
    AgreeOff D (writeFrom dst count 0 values m) (Memory.writeFrom dst count 0 values n) :=
  ⟨by simpa using h.size_eq, by simpa using h.sizeOf_eq,
    fun s hs => getElem?_writeFrom_congr dst count values 0 (h.eq s hs)⟩

theorem writeFrom_left (h : AgreeOff D m n) {dst : Address} (hd : dst.segment ∈ D) (count : Nat)
    (values : List α) : AgreeOff D (Memory.writeFrom dst count 0 values m) n := by
  refine ⟨by simpa using h.size_eq, by simpa using h.sizeOf_eq, fun s hs => ?_⟩
  have hne : dst.segment ≠ s := by
    rintro rfl
    exact hs hd
  rw [getElem?_writeFrom_of_ne hne, h.eq s hs]

theorem handIn (h : AgreeOff D m n) (s : Nat) (values : Array α) :
    AgreeOff D (m.setIfInBounds s values) (n.setIfInBounds s values) := by
  refine ⟨by simpa using h.size_eq, fun t => ?_, fun t ht => ?_⟩
  · have ht := h.sizeOf_eq t
    rw [sizeOf, sizeOf] at ht ⊢
    rw [Array.getElem?_setIfInBounds, Array.getElem?_setIfInBounds, h.size_eq]
    split
    · rfl
    · exact ht
  · rw [Array.getElem?_setIfInBounds, Array.getElem?_setIfInBounds, h.size_eq, h.eq t ht]

end AgreeOff

theorem masks_agreeOff [Scalar α] (D : Set Nat) :
    Masks (fun (_ : Option Check.Shape) (_ : Inst α) => True) D (AgreeOff D) where
  holds h a count lanes ha lane hl := by
    rw [h.sizeOf_eq]
    exact ha lane hl
  valueAt_eq h a ha := by
    funext count lane
    simp [valueAt, value, h.eq a.segment ha]
  writeFrom h _ _ _ _ _ := h.writeFrom _
  writeFrom_left h _ _ _ _ _ hd := h.writeFrom_left hd

end Memory

theorem Thins.reads_sublist {U : Set Reg} {D : Set Nat} {old new : Block α}
    (h : Thins U D old new) :
    (Block.reads new).Sublist (Block.reads old) := by
  induction h with
  | nil => exact .slnil
  | keep _ _ _ _ ih => exact (List.Sublist.refl _).append ih
  | loop _ _ ihb ihr => exact ihb.append ihr
  | drop _ _ ih => exact ih.trans (List.sublist_append_right _ _)
  | dropEmpty _ _ _ ih => exact ih.trans (List.sublist_append_right _ _)
  | dropIdle _ ih => exact ih.trans (List.sublist_append_right _ _)

namespace Block

@[simp] theorem reads_sweep_sublist (body : Block α) :
    (reads (sweep body)).Sublist (reads body) := by
  induction body using sweep.induct with
  | case1 body next hlt ih =>
    have hthin : Thins _ ∅ body next := thins_prune fun r hr => by simpa using hr
    rw [sweep, if_pos hlt]
    exact ih.trans hthin.reads_sublist
  | case2 body next hge =>
    rw [sweep, if_neg hge]

@[simp] theorem size_sweep_le (body : Block α) : size (sweep body) ≤ size body := by
  induction body using sweep.induct with
  | case1 body next hlt ih =>
    rw [sweep, if_pos hlt]
    exact ih.trans (Nat.le_of_lt hlt)
  | case2 body next hge =>
    rw [sweep, if_neg hge]

end Block

def Inst.Avoids (D : Set Nat) (_ : Option Check.Shape) : Inst α → Prop
  | .store dst _ _ => dst.segment ∉ D
  | .load _ _ _ | .binary _ _ _ _ | .call _ | .loop _ _ _ _ => True

mutual

theorem Inst.dropStores_eq_or_lt (dead : Nat → Bool) :
    ∀ (shape : Option Check.Shape) (inst : Inst α), (inst.dropStores dead = some inst ∧
      inst.Each (Inst.Avoids {s | dead s = true}) shape) ∨
      Block.size (inst.dropStores dead).toList < inst.size
  | shape, .store dst src lanes => by
    by_cases hd : dead dst.segment = true
    · exact Or.inr (by simp [Inst.dropStores, hd, Block.size, Inst.size])
    · exact Or.inl ⟨by rw [Inst.dropStores, if_neg hd], hd⟩
  | shape, .load _ _ _ => Or.inl ⟨rfl, trivial⟩
  | shape, .binary _ _ _ _ => Or.inl ⟨rfl, trivial⟩
  | shape, .call _ => Or.inl ⟨rfl, trivial⟩
  | shape, .loop trips step parallel body => by
    simp only [Inst.dropStores, Option.toList_some, Block.size, Inst.size, Option.some.injEq,
      Inst.loop.injEq, true_and]
    rcases Block.dropStores_eq_or_lt dead (some ⟨iterations trips step, step⟩) body with
      ⟨heq, havoids⟩ | hlt
    · exact Or.inl ⟨heq, trivial, havoids⟩
    · exact Or.inr (by omega)

theorem Block.dropStores_eq_or_lt (dead : Nat → Bool) :
    ∀ (shape : Option Check.Shape) (body : List (Inst α)), (Block.dropStores dead body = body ∧
      Block.Each (Inst.Avoids {s | dead s = true}) shape body) ∨
      Block.size (Block.dropStores dead body) < Block.size body
  | _, [] => Or.inl ⟨rfl, trivial⟩
  | shape, inst :: rest => by
    exact Block.cons_eq_or_lt (Inst.dropStores_eq_or_lt dead shape inst)
      (Block.dropStores_eq_or_lt dead shape rest)

end

namespace Routine

variable (dead : Nat → Bool)

theorem reads_dropStores_sublist (r : Routine α) (hr : ∀ s ∈ Block.reads r.body, dead s = false) :
    (Block.reads (r.dropStores dead).body).Sublist (Block.reads r.body) := by
  simp only [dropStores]
  split
  · exact (Block.reads_sweep_sublist _).trans (Block.thins_dropStores hr).reads_sublist
  · exact .refl _

theorem dropStores_eq_or_lt (r : Routine α) :
    (r.dropStores dead = r ∧ Block.Each (Inst.Avoids {s | dead s = true}) none r.body) ∨
      (r.dropStores dead).size < r.size := by
  simp only [dropStores]
  split
  · rename_i hlt
    exact Or.inr (Nat.lt_of_le_of_lt (Block.size_sweep_le _) hlt)
  · rename_i hge
    exact Or.inl ⟨rfl, ((Block.dropStores_eq_or_lt dead none r.body).resolve_right hge).2⟩

end Routine

variable [Scalar α]

theorem Routine.imitates_dropStores {D : Set Nat} {dead : Nat → Bool} {r : Routine α}
    (hdead : ∀ s, dead s = true ↔ s ∈ D) (hr : ∀ s ∈ Block.reads r.body, s ∉ D) :
    r.Imitates (Memory.AgreeOff D) (r.dropStores dead) := by
  have hset : {s | dead s = true} = D := Set.ext hdead
  have hthin := Block.thins_dropStores fun s hs =>
    Bool.eq_false_of_not_eq_true ((hdead s).not.mpr (hr s hs))
  have hself : Thins Set.univ D r.body r.body := Block.thins_refl (fun _ _ => Set.mem_univ _) hr
  have hwrites : Block.Each (fun (_ : Option Check.Shape) (_ : Inst α) => True) none r.body :=
    Block.each_of_forall fun _ _ => trivial
  simp only [dropStores]
  split
  · exact ((hset ▸ hthin).imitates (Memory.masks_agreeOff D) hwrites).trans_eq (imitates_sweep _)
  · exact hself.imitates (Memory.masks_agreeOff D) hwrites

namespace Program

def Unread (p : Program α) : Set Nat :=
  {s | (∃ seg, p.segments[s]? = some seg ∧ seg.role = .scratch) ∧ ∀ r ∈ p.routines,
    s ∉ Block.reads r.body}

variable {p : Program α}

omit [Scalar α] in
theorem contains_unread {s : Nat} : p.unread.contains s = true ↔ s ∈ p.Unread := by
  rw [List.contains_iff_mem, mem_unread]
  rfl

omit [Scalar α] in
theorem not_mem_unread {r : Routine α} (hr : r ∈ p.routines) :
    ∀ s ∈ Block.reads r.body, s ∉ p.Unread := fun _ hs h => h.2 r hr hs

omit [Scalar α] in
@[simp] theorem unread_subset_dropStores : p.Unread ⊆ p.dropStores.Unread := by
  rintro s ⟨hscratch, hreads⟩
  refine ⟨hscratch, fun r' hr' => ?_⟩
  obtain ⟨r, hr, rfl⟩ := List.mem_map.mp hr'
  refine fun hs => hreads r hr ((r.reads_dropStores_sublist _ fun s hs => ?_).subset hs)
  exact Bool.eq_false_of_not_eq_true (contains_unread.not.mpr (not_mem_unread hr s hs))

/-- After a round, calls do what they did, up to what nothing reads. -/
theorem dropStores_follows (depth : Nat) :
    CallsFollow (Memory.AgreeOff p.Unread) (p.call depth) (p.dropStores.call depth) :=
  callsFollow (forall₂_map_self fun _ hr =>
    Routine.imitates_dropStores (fun _ => contains_unread) (not_mem_unread hr)) depth

theorem dropDeadStores_follows (p : Program α) (depth : Nat) :
    p.Unread ⊆ p.dropDeadStores.Unread ∧
      CallsFollow (Memory.AgreeOff p.dropDeadStores.Unread) (p.call depth)
        (p.dropDeadStores.call depth) := by
  induction p using dropDeadStores.induct with
  | case1 p next hlt ih =>
    obtain ⟨hsubset, hfollows⟩ := ih
    rw [dropDeadStores, if_pos hlt]
    have hround : p.Unread ⊆ next.dropDeadStores.Unread := unread_subset_dropStores.trans hsubset
    refine ⟨hround, fun name m n hmn u m' hx => ?_⟩
    -- by one round from the same memory, by the others from memories that agree as before
    obtain ⟨u', k, hy, hk⟩ := dropStores_follows depth name m m (.refl m) u m' hx
    obtain ⟨u'', n', hz, hn⟩ := hfollows name m n hmn u' k hy
    exact ⟨u'', n', hz, (hk.mono hround).trans hn⟩
  | case2 p next hge =>
    rw [dropDeadStores, if_neg hge]
    refine ⟨subset_rfl, callsFollow (List.forall₂_same.mpr fun r hr => ?_) depth⟩
    exact (Block.thins_refl (fun _ _ => Set.mem_univ _) (not_mem_unread hr)).imitates
      (Memory.masks_agreeOff _) (Block.each_of_forall fun _ _ => trivial)

omit [Scalar α] in
theorem exists_dropDeadStores_eq_iterate (p : Program α) :
    ∃ n ≤ p.size, p.dropDeadStores = dropStores^[n] p := by
  induction p using dropDeadStores.induct with
  | case1 p next hlt ih =>
    obtain ⟨n, hn, hs⟩ := ih
    rw [dropDeadStores, if_pos hlt]
    exact ⟨n + 1, by omega, hs⟩
  | case2 p next hge =>
    rw [dropDeadStores, if_neg hge]
    exact ⟨0, Nat.zero_le _, rfl⟩

omit [Scalar α] in
theorem size_eq_sum (p : Program α) : p.size = (p.routines.map Routine.size).sum := by
  rw [size, List.sum_eq_foldr, List.foldr_map]

omit [Scalar α] in
theorem avoids_of_size_le (h : p.size ≤ p.dropStores.size) {r : Routine α} (hr : r ∈ p.routines) :
    Block.Each (Inst.Avoids p.Unread) none r.body := by
  have hset : {s | p.unread.contains s = true} = p.Unread := Set.ext fun _ => contains_unread
  rcases r.dropStores_eq_or_lt p.unread.contains with ⟨-, havoids⟩ | hlt
  · exact hset ▸ havoids
  · have hle : ∀ r ∈ p.routines, (r.dropStores p.unread.contains).size ≤ r.size := by
      intro r _
      rcases r.dropStores_eq_or_lt p.unread.contains with ⟨heq, -⟩ | hlt
      · rw [heq]
      · exact Nat.le_of_lt hlt
    have hsum := List.sum_lt_sum _ _ hle ⟨r, hr, hlt⟩
    rw [size_eq_sum, size_eq_sum, dropStores, List.map_map] at h
    exact absurd hsum (Nat.not_lt.mpr h)

omit [Scalar α] in
theorem avoids_dropDeadStores (p : Program α) :
    ∀ r ∈ p.dropDeadStores.routines,
    Block.Each (Inst.Avoids p.dropDeadStores.Unread) none r.body := by
  induction p using dropDeadStores.induct with
  | case1 p next hlt ih =>
    rw [dropDeadStores, if_pos hlt]
    exact ih
  | case2 p next hge =>
    rw [dropDeadStores, if_neg hge]
    exact fun r hr => avoids_of_size_le (Nat.le_of_not_lt hge) hr

end Program

namespace Machine

/-- Machines over two programs with the same number of runs behind them, their memories equal but
for some segments. -/
structure Trails (p q : Program α) (D : Set Nat) (m n : Machine α) : Prop where
  left : m.program = p
  right : n.program = q
  memory : m.memory.AgreeOff D n.memory
  runs : n.runs = m.runs

section Trails

variable {p q : Program α} {D : Set Nat} {m n : Machine α} (hs : q.segments = p.segments)
  (hcalls : CallsFollow (Memory.AgreeOff D) (p.call callLimit) (q.call callLimit))

include hcalls in
theorem Trails.call (h : Trails p q D m n) (name : String) (hok : (m.call name).1 = .ok ()) :
    (n.call name).1 = .ok () ∧ Trails p q D (m.call name).2 (n.call name).2 := by
  obtain ⟨rfl, rfl, hmemory, hruns⟩ := h
  have hm := call_of_ok m name hok
  obtain ⟨_, n', hn, hagree⟩ := hcalls name _ _ hmemory _ _ hm
  have hn' : n.call name = (.ok (), { n with memory := n' }) := by simp only [Machine.call, hn]
  rw [hn']
  have hruns' : (m.call name).2.runs = m.runs := by
    unfold Machine.call
    split <;> rfl
  exact ⟨rfl, call_snd_program m name, rfl, hagree, hruns.trans hruns'.symm⟩

include hs in
omit [Scalar α] in
theorem Trails.admits (h : Trails p q D m n) (input : List α) :
    n.admits input = m.admits input := by
  obtain ⟨rfl, rfl, hmemory, -⟩ := h
  have hsegment : ∀ role, n.program.segmentOf? role = m.program.segmentOf? role := by
    simp [Program.segmentOf?, hs]
  simp only [Machine.admits, hsegment, hmemory.sizeOf_eq]

include hs hcalls in
theorem Trails.run (hD : ∀ s ∈ D, ∀ seg : Segment α, p.segments[s]? = some seg → seg.role ≠ .output)
    (h : Trails p q D m n) {entry : String} {input values : List α}
    (hok : (m.run entry input).1 = .ok values) :
    (n.run entry input).1 = .ok values ∧
    Trails p q D (m.run entry input).2 (n.run entry input).2 := by
  have hadmits := h.admits hs input
  unfold Machine.run at hok ⊢
  rw [hadmits]
  cases ha : m.admits input with
  | error e =>
    rw [ha] at hok
    cases hok
  | ok places =>
    obtain ⟨source, target⟩ := places
    obtain ⟨-, htarget, -⟩ := admits_eq_ok ha
    obtain ⟨seg, hseg, hrole⟩ := exists_segment htarget
    have hin : Trails p q D { m with memory := m.memory.setIfInBounds source input.toArray }
        { n with memory := n.memory.setIfInBounds source input.toArray } :=
      ⟨h.left, h.right, h.memory.handIn source _, h.runs⟩
    have hcall := hin.call hcalls entry
    simp only [ha] at hok ⊢
    generalize hx : ({ m with memory := m.memory.setIfInBounds source input.toArray } : Machine
      α).call entry = x at hok hcall
    generalize hy : ({ n with memory := n.memory.setIfInBounds source input.toArray } : Machine
      α).call entry = y at hcall
    obtain ⟨result, m'⟩ := x
    obtain ⟨result', n'⟩ := y
    cases result with
    | error e => cases hok
    | ok u =>
      obtain ⟨hresult, hleft, hright, hmemory, hruns⟩ := hcall rfl
      obtain rfl : result' = .ok () := hresult
      have hout : n'.memory[target]? = m'.memory[target]? :=
        hmemory.eq target fun ht => hD target ht seg (h.left ▸ hseg) hrole
      refine ⟨?_, hleft, hright, hmemory, congrArg (· + 1) hruns⟩
      simpa only [segment?, hout] using hok

include hs in
omit [Scalar α] in
theorem Trails.reset (h : Trails p q D m n) : Trails p q D m.reset n.reset := by
  obtain ⟨rfl, rfl, -, -⟩ := h
  have hmemory : n.program.initialMemory = m.program.initialMemory := by
    simp [Program.initialMemory, hs]
  refine ⟨rfl, rfl, ?_, rfl⟩
  rw [reset, reset, ofProgram, ofProgram, hmemory]
  exact .refl _

variable (hD : ∀ s ∈ D, ∀ seg : Segment α, p.segments[s]? = some seg → seg.role ≠ .output)

include hs hcalls hD in
theorem Trails.use (h : Trails p q D m n) {u : Use α} {answer : Option (List α)}
    (hok : (m.use u).1 = .ok answer) :
    (n.use u).1 = .ok answer ∧ Trails p q D (m.use u).2 (n.use u).2 := by
  cases u with
  | call name =>
    cases hm : (m.call name).1 with
    | error e => simp [Machine.use, hm, Except.map] at hok
    | ok result =>
      obtain ⟨hn, htrails⟩ := h.call hcalls name hm
      refine ⟨?_, htrails⟩
      rw [← hok, Machine.use, Machine.use, hn, hm]
  | run entry input =>
    cases hm : (m.run entry input).1 with
    | error e => simp [Machine.use, hm, Except.map] at hok
    | ok values =>
      obtain ⟨hn, htrails⟩ := h.run hs hcalls hD hm
      refine ⟨?_, htrails⟩
      rw [← hok, Machine.use, Machine.use, hn, hm]
  | reset => exact ⟨hok, h.reset hs⟩

include hs hcalls hD in
/-- As long as the one machine succeeds, the other answers the same. -/
theorem Trails.shows (h : Trails p q D m n) (uses : List (Use α))
    (hok : ∀ shown ∈ m.shows uses, shown.1.isOk = true) :
    List.Forall₂ (fun shown shown' => shown'.1 = shown.1 ∧ shown.2.1.AgreeOff D shown'.2.1 ∧
      shown'.2.2 = shown.2.2) (m.shows uses) (n.shows uses) := by
  induction uses generalizing m n with
  | nil => exact .nil
  | cons u us ih =>
    obtain ⟨hanswer, hrest⟩ := List.forall_mem_cons.mp hok
    cases hm : (m.use u).1 with
    | error e => simp [hm, Except.isOk, Except.toBool] at hanswer
    | ok answer =>
      obtain ⟨hn, htrails⟩ := h.use hs hcalls hD hm
      exact .cons ⟨hn.trans hm.symm, htrails.memory, htrails.runs⟩ (ih htrails hrest)

end Trails
end Machine

namespace Program

omit [Scalar α] in
@[simp] theorem segments_dropDeadStores (p : Program α) :
    p.dropDeadStores.segments = p.segments := by
  induction p using dropDeadStores.induct with
  | case1 p next hlt ih =>
    rw [dropDeadStores, if_pos hlt]
    exact ih
  | case2 p next hge => rw [dropDeadStores, if_neg hge]

/-- Dropping dead stores ends, after a round for an instruction at most. Uses of a machine that all
succeed do so without them, and show the same, but for scratch segments that no routine loads from
any more; to none of those a store is left. -/
theorem dropDeadStores_unobservable (p : Program α) :
    (∃ n ≤ p.size, p.dropDeadStores = dropStores^[n] p) ∧
      (∀ uses, (∀ shown ∈ (Machine.ofProgram p).shows uses, shown.1.isOk = true) →
        List.Forall₂ (fun shown shown' => shown'.1 = shown.1 ∧
            shown.2.1.AgreeOff p.dropDeadStores.Unread shown'.2.1 ∧ shown'.2.2 = shown.2.2)
          ((Machine.ofProgram p).shows uses) ((Machine.ofProgram p.dropDeadStores).shows uses)) ∧
      ∀ r ∈ p.dropDeadStores.routines,
        Block.Each (Inst.Avoids p.dropDeadStores.Unread) none r.body := by
  refine ⟨exists_dropDeadStores_eq_iterate p, fun uses hok => ?_, avoids_dropDeadStores p⟩
  have hmemory : p.dropDeadStores.initialMemory = p.initialMemory := by simp [initialMemory]
  have hstart : Machine.Trails p p.dropDeadStores p.dropDeadStores.Unread (.ofProgram p)
      (.ofProgram p.dropDeadStores) := by
    refine ⟨rfl, rfl, ?_, rfl⟩
    rw [Machine.ofProgram, Machine.ofProgram, hmemory]
    exact .refl _
  refine hstart.shows (segments_dropDeadStores p) (dropDeadStores_follows p callLimit).2 ?_ uses hok
  rintro s ⟨⟨seg', hseg', hrole⟩, -⟩ seg hseg
  rw [segments_dropDeadStores, hseg] at hseg'
  cases hseg'
  simp [hrole]

/-- Copies an input into a chain of scratch segments, the last of which is not read, and to the
output. -/
def relaying : Program Float where
  name := "relaying"
  segments := #[.zeros "input" .input 2, .zeros "output" .output 2, .zeros "first" .scratch 2,
    .zeros "last" .scratch 2]
  routines := [
    .ofBody "first" .internal [.load 0 (.fixed 0 0) 2, .store ⟨2, 0, 1⟩ (.reg 0) 2],
    .ofBody "last" .internal [.loop 2 1 false [.load 0 ⟨2, 0, 1⟩ 1, .store ⟨3, 0, 1⟩ (.reg 0) 1]],
    .ofBody "main" .external [.call "first", .call "last", .loop 2 1 false [.load 0 ⟨0, 0, 1⟩ 1,
      .store ⟨1, 0, 1⟩ (.reg 0) 1]]]

def relayingUses : List (Machine.Use Float) :=
  [.run "main" [3, 4], .call "last", .run "main" [5, 6]]

theorem dropDeadStores_unobservable_relaying :
    relaying.size = 10 ∧ relaying.dropDeadStores.size = 5 ∧
      (∀ shown ∈ (Machine.ofProgram relaying).shows relayingUses, shown.1.isOk = true) ∧
      List.Forall₂ (fun shown shown' => shown'.1 = shown.1 ∧
          shown.2.1.AgreeOff relaying.dropDeadStores.Unread shown'.2.1 ∧ shown'.2.2 = shown.2.2)
        ((Machine.ofProgram relaying).shows relayingUses)
        ((Machine.ofProgram relaying.dropDeadStores).shows relayingUses) := by
  have hok : ∀ shown ∈ (Machine.ofProgram relaying).shows relayingUses, shown.1.isOk = true := by
    decide +kernel
  exact ⟨by decide +kernel, by decide +kernel, hok,
    (dropDeadStores_unobservable relaying).2.1 _ hok⟩

end Program
end StreamStats
