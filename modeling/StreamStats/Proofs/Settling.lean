import StreamStats.Proofs.Elements

/-! Generated code does to a segment what a cell does when it settles, as long as the values of the
cells that it reads are in memory. No law of the arithmetic is used: the same operations meet the
same operands. -/

namespace StreamStats

variable {α : Type}

namespace Codegen

open Exec

variable [Scalar α]

namespace Layout

variable {l : Layout} {m : Memory α} {levels : Levels α}

/-- Memory has for every pin of a bus the value that it carries, and not in segment `d`. -/
def Shows (l : Layout) (m : Memory α) (levels : Levels α) (d : Nat) (b : Bus) : Prop :=
  ∀ p ∈ b, d ≠ l.home p.cell ∧ p.element < m.sizeOf (l.home p.cell) ∧
    m.value (l.home p.cell) p.element = levels.readPin p

theorem Shows.ready {d : Nat} {b : Bus} (h : l.Shows m levels d b) : l.Ready m d b := by
  intro i p hp
  obtain ⟨hne, hlt, -⟩ := h p (List.mem_of_getElem? hp)
  exact ⟨hlt, Or.inl hne⟩

theorem Shows.busValue_eq {d : Nat} {b : Bus} (h : l.Shows m levels d b) {i : Nat}
    (hi : i < b.length) :
    l.busValue m b i = levels.readPin b[i] := by
  rw [Layout.busValue_eq (List.getElem?_eq_getElem hi)]
  exact (h _ (List.getElem_mem hi)).2.2

theorem Shows.writes {d : Nat} {b : Bus} (h : l.Shows m levels d b) (place : Nat → Nat)
    (values : Nat → α) (n : Nat) : l.Shows (m.writes d place values n) levels d b := by
  intro p hp
  obtain ⟨hne, hlt, hv⟩ := h p hp
  exact ⟨hne, by rwa [Memory.sizeOf_writes], by rw [Memory.value_writes_of_ne (Or.inl hne), hv]⟩

/-- A run settles a segment and touches no other. -/
def Settles (x : Exec α (Frame α)) (m : Memory α) (d : Nat) (values : Array α) : Prop :=
  ∃ m', Ends x m m' ∧ m'[d]? = some values ∧ (∀ s, d ≠ s → m'[s]? = m[s]?) ∧
    m'.size = m.size ∧ ∀ s, m'.sizeOf s = m.sizeOf s

variable {call : String → Exec α Unit} {name : String}

theorem delay_settles {d : Nat} {source : Bus} {window : Nat} (hwindow : window ≠ 0)
    (hsource : l.Shows m levels d source) {last : Array α} (hlast : m[d]? = some last)
    (hsize : last.size = source.length * window) (hm : ∀ s, m.sizeOf s ≤ signBound) (r : Reg)
    (f : Frame α) :
    Settles (Block.exec call name 0 ((l.shift d source.length window).1 ++ l.copy r d source) f) m d
      ((levels.read source).toArray ++ last.extract 0 (source.length * (window - 1))) := by
  have hmsize : m.sizeOf d = source.length * window := (Memory.sizeOf_eq hlast).trans hsize
  have hmoved : source.length * (window - 1) = source.length * window - source.length := by
    rw [Nat.mul_sub, Nat.mul_one]
  have hle : source.length ≤ source.length * window :=
    Nat.le_mul_of_pos_right _ (Nat.pos_of_ne_zero hwindow)
  generalize hm₁ : m.writes d (source.length * window - 1 - ·)
    (fun i => m.value d (source.length * window - 1 - source.length - i))
    (source.length * (window - 1)) = m₁
  have hsize₁ : ∀ s, m₁.sizeOf s = m.sizeOf s := by simp [← hm₁]
  have hshift : Ends (Block.exec call name 0 (l.shift d source.length window).1 f) m m₁ := by
    rw [← hm₁]
    exact shift_ends hmsize (hmsize ▸ hm d) f
  have hsource₁ : l.Shows m₁ levels d source := hm₁ ▸ hsource.writes _ _ _
  refine ⟨m₁.writes d id (l.busValue m₁ source) source.length, ?_, ?_, ?_, ?_, ?_⟩
  · rw [Block.exec_append]
    exact hshift.bind fun f' =>
      copy_ends hsource₁.ready (by rw [hsize₁, hmsize]; exact hle) (fun s => hsize₁ s ▸ hm s) _ f'
  · refine Memory.getElem?_eq_of_values ?_ ?_ ?_
    · simpa [← hm₁] using (Array.getElem?_eq_some_iff.mp hlast).1
    · simp only [Memory.sizeOf_writes, hsize₁, hmsize, Array.size_append, List.size_toArray,
        Levels.length_read, Array.size_extract, hsize]
      omega
    · intro j hj
      have hj : j < source.length * window := by
        simp only [Array.size_append, List.size_toArray, Levels.length_read, Array.size_extract,
          hsize] at hj
        omega
      by_cases hjs : j < source.length
      · rw [Memory.value_writes_id hjs (by rwa [hsize₁, hmsize]), hsource₁.busValue_eq hjs]
        simp [hjs, Levels.read]
      · -- what stands behind the new block has moved up by one block
        have hplace : source.length * window - 1 - (source.length * window - 1 - j) = j := by omega
        have hmove := @Memory.value_writes _ m d (source.length * window - 1 - ·)
          (fun i => m.value d (source.length * window - 1 - source.length - i))
          (source.length * (window - 1)) _ (source.length * window - 1 - j) (by omega)
          (by rw [hplace, hmsize]; exact hj) (fun k hk hlt => by omega)
        rw [hplace, hm₁] at hmove
        rw [Memory.value_writes_of_ne (Or.inr fun i hi => by simp only [id]; omega), hmove,
          Memory.value_eq hlast]
        have hj' : source.length * window - 1 - source.length - (source.length * window - 1 - j) =
            j - source.length := by omega
        have hlt : j - source.length < last.size := by omega
        simp [hj', Array.getElem_append, hjs, Array.getElem?_eq_getElem hlt]
  · intro s hs
    rw [Memory.getElem?_writes_of_ne hs, ← hm₁, Memory.getElem?_writes_of_ne hs]
  · simp [← hm₁]
  · simp [hsize₁]

/-- Combining puts the results in the front of a segment, also where that is what it combines. -/
theorem combine_settles {d : Nat} {op : Arith} {lhs rhs : Bus} (hl : l.Ready m d lhs)
    (hr : l.Ready m d rhs) (hlen : lhs.length = rhs.length) (hsize : m.sizeOf d = lhs.length)
    (hd : d < m.size) (hm : ∀ s, m.sizeOf s ≤ signBound) {values : Array α}
    (hv : values.size = lhs.length) (hvalue : ∀ i, (h : i < values.size) →
      op.apply (l.busValue m lhs i) (l.busValue m rhs i) = values[i]) (f : Frame α) :
    Settles (Block.exec call name 0 (l.combine op d lhs rhs) f) m d values := by
  refine ⟨_, combine_ends hl hr hlen (Nat.le_of_eq hsize.symm) hm f, ?_, ?_, ?_, ?_⟩
  · refine Memory.getElem?_eq_of_values (by simpa) (by simp [hsize, hv]) fun i hi => ?_
    rw [Memory.value_writes_id (hv ▸ hi) (by rw [hsize]; exact hv ▸ hi)]
    exact hvalue i hi
  · exact fun s hs => Memory.getElem?_writes_of_ne hs
  · simp
  · simp

/-- The code of a cell settles the cell in its segment. -/
theorem cellBody_settles {id : Nat} {cell : Cell α} {body : Block α}
    (hbody : l.cellBody? id cell = some body) (hshape : cell.checkShape = .ok ())
    (hsources : ∀ b ∈ cell.sources, l.Shows m levels (l.home id) b) {last : Array α}
    (hlast : m[l.home id]? = some last) (hsize : last.size = cell.size)
    (hm : ∀ s, m.sizeOf s ≤ signBound) (sample : List α) (f : Frame α) :
    Settles (Block.exec call name 0 body f) m (l.home id) (cell.settle levels sample last) := by
  have hmsize : m.sizeOf (l.home id) = cell.size := (Memory.sizeOf_eq hlast).trans hsize
  have hlt : l.home id < m.size := (Array.getElem?_eq_some_iff.mp hlast).1
  cases cell with
  | input _ | constant _ => simp [cellBody?] at hbody
  | delay source window =>
    cases hbody
    exact delay_settles (Cell.checkShape_delay hshape).2 (hsources source (by simp [Cell.sources]))
      hlast hsize hm _ f
  | binary op lhs rhs =>
    cases hbody
    have hlen := (Cell.checkShape_binary hshape).2
    have hlhs := hsources lhs (by simp [Cell.sources])
    have hrhs := hsources rhs (by simp [Cell.sources])
    refine combine_settles hlhs.ready hrhs.ready hlen hmsize hlt hm (by simp [Cell.settle, hlen]) ?_
      f
    intro i hi
    have hi : i < lhs.length := by simpa [Cell.settle, ← hlen] using hi
    rw [hlhs.busValue_eq hi, hrhs.busValue_eq (hlen ▸ hi)]
    simp [Cell.settle, Levels.read]
  | accumulator source =>
    cases hbody
    have hsource := hsources source (by simp [Cell.sources])
    have hown : ∀ i < source.length, (Bus.range id 0 source.length)[i]? = some ⟨id, i⟩ := by
      intro i hi
      simp [Bus.range, hi]
    have hready : l.Ready m (l.home id) (Bus.range id 0 source.length) := by
      intro i p hp
      have hi : i < source.length := by simpa using (List.getElem?_eq_some_iff.mp hp).1
      rw [hown i hi] at hp
      cases hp
      exact ⟨by rw [hmsize]; exact hi, Or.inr (Nat.le_refl i)⟩
    refine combine_settles hready hsource.ready (by simp) (by simpa [Cell.size] using hmsize) hlt hm
      (by simp [Cell.settle, show last.size = source.length from hsize]) ?_ f
    intro i hi
    have hi : i < last.size ∧ i < source.length := by simpa [Cell.settle, Nat.lt_min] using hi
    rw [hsource.busValue_eq hi.2, Layout.busValue_eq (hown i hi.2), Memory.value_eq hlast]
    simp [Cell.settle, Levels.read, Arith.apply, hi.1]

end Layout
end Codegen
end StreamStats
