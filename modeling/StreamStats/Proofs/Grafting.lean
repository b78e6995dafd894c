import StreamStats.Proofs.Mirroring
import StreamStats.Proofs.Splicing

/-! Checked code in which instructions are replaced. An instruction that sets nothing for the code
behind it may give way to code that is accepted in its place and does alike; the registers that are
new count up from a bound. Unlike in splicing, indices may run over words and loops may read
registers from outside. -/

namespace StreamStats

open Exec Check

variable {α : Type}

@[simp] theorem Block.targets_singleton (inst : Inst α) : Block.targets [inst] = inst.targets :=
  List.append_nil _

/-- Code in which instructions are to be replaced, behind code of which `V` is the scope. -/
structure Graftable (context : Context α) (lanes : Reg → Nat) (V : Set Reg) (bound : Nat)
    (old : Block α) : Prop where
  admitted : Block.Each (fun shape inst => inst.Admitted context lanes shape) none old
  reads : Block.Scoped false V old
  nodup : (Block.targets old).Nodup
  mentions : ∀ r : Nat, r ∈ Block.mentions old → r < bound
  scope : ∀ r : Nat, r ∈ V → r ∉ Block.targets old ∧ r < bound

section Typed

variable [Scalar α] {context : Context α} {lanes : Reg → Nat} {call : String → Exec α Unit}
    {name : String}

omit [Scalar α] in
theorem Frame.Typed.value {V : Set Reg} {f : Frame α} (hf : f.Typed lanes V) {x : Operand α}
    (hx : x.Reads V) {xs : List α} (hxs : Frame.value? f x = some xs) :
    xs ≠ [] ∧ (xs.length = 1 ∨ xs.length = x.width lanes) := by
  obtain ⟨ys, hy, h⟩ := hf.read hx ""
  rw [Frame.read_eq_ok_iff, hxs] at hy
  cases hy
  exact h

mutual

/-- What registers hold is of the lanes that the checker counted, as long as a run goes on. -/
theorem Inst.exec_typed :
    ∀ {inst : Inst α} {shape : Option Shape} {V : Set Reg} {count : Nat} {f : Frame α}
      {m : Memory α},
      inst.Each (fun shape inst => inst.Admitted context lanes shape) shape → inst.Scoped false V →
      f.Typed lanes V → After (fun f' _ => f'.Typed lanes (inst.define V))
        (inst.exec call name count f) m
  | .load dst src n, shape, V, count, f, m, ha, _, hf => by
    intro f' m' h
    obtain ⟨-, rfl, -⟩ := Inst.exec_load_iff.mp h
    have hn := lanes_ne_zero_of_access ha.1
    refine hf.set ?_ (by simpa using ha.2)
    simpa using hn
  | .store dst x n, shape, V, count, f, m, _, _, hf => by
    intro f' m' h
    obtain ⟨xs, -, -, -, rfl, -⟩ := Inst.exec_store_iff.mp h
    rintro r (hr | hr)
    · exact hf r hr
    · cases hr
  | .binary dst op x y, shape, V, count, f, m, ha, hs, hf => by
    intro f' m' h
    obtain ⟨xs, ys, zs, hx, hy, hz, rfl, -⟩ := Inst.exec_binary_iff.mp h
    obtain ⟨hx0, hxl⟩ := hf.value hs.1 hx
    obtain ⟨hy0, hyl⟩ := hf.value hs.2 hy
    obtain ⟨h1, h2⟩ := ha
    obtain ⟨zs', hz', hzl⟩ := Arith.lanes_eq_ok op (by omega) hx0 hy0
    rw [hz] at hz'
    cases hz'
    have hx0 : xs.length ≠ 0 := by simpa using hx0
    refine hf.set ?_ (by omega)
    rw [← List.length_pos_iff]
    omega
  | .call callee, shape, V, count, f, m, _, _, hf => by
    intro f' m' h
    obtain ⟨rfl, -⟩ := Inst.exec_call_iff.mp h
    rintro r (hr | hr)
    · exact hf r hr
    · cases hr
  | .loop trips step parallel body, shape, V, count, f, m, ha, hs, hf => by
    have hs : Block.Scoped false V body := by simpa [Inst.Scoped] using hs
    rw [Inst.exec_loop]
    have hrounds : After (fun f' _ => Frame.Typed lanes V f') (Exec.iterate (fun count f =>
        Block.exec call name count body f) (max step 1) (iterations trips (max step 1)) 0 f) m := by
      refine After.iterate _ 0 hf fun i _ f₁ m₁ hf₁ => ?_
      intro f' m' h
      exact (Block.exec_typed ha.2 hs hf₁ f' m' h).mono (Block.subset_define body V)
    intro f' m' h
    rintro r (hr | hr)
    · exact hrounds f' m' h r hr
    · cases hr

theorem Block.exec_typed :
    ∀ {body : List (Inst α)} {shape : Option Shape} {V : Set Reg} {count : Nat} {f : Frame α}
      {m : Memory α},
      Block.Each (fun shape inst => inst.Admitted context lanes shape) shape body →
      Block.Scoped false V body → f.Typed lanes V →
      After (fun f' _ => f'.Typed lanes (Block.define body V)) (Block.exec call name count body f) m
  | [], _, _, _, _, _, _, _, hf => by
    intro f' m' h
    obtain ⟨rfl, -⟩ := pure_eq_ok_iff.mp h
    exact hf
  | inst :: rest, _, _, _, _, _, ha, hs, hf => by
    simp only [Block.exec]
    exact After.bind (Inst.exec_typed ha.1 hs.1 hf) fun f' m' hf' => Block.exec_typed ha.2 hs.2 hf'

end

end Typed

namespace Graftable

variable {context : Context α} {lanes lanes' : Reg → Nat} {V : Set Reg} {bound bound' : Nat}
    {inst : Inst α} {rest : Block α}

theorem target_lt (h : Graftable context lanes V bound rest) {r : Nat}
    (hr : r ∈ Block.targets rest) : r < bound :=
  h.mentions r (Block.targets_subset_mentions rest r hr)

theorem first (h : Graftable context lanes V bound (inst :: rest)) :
    Graftable context lanes V bound [inst] := by
  obtain ⟨hd, -, -⟩ := List.nodup_append.mp h.nodup
  refine ⟨⟨h.admitted.1, trivial⟩, ⟨h.reads.1, trivial⟩, Block.targets_singleton inst ▸ hd,
    fun r hr => ?_, fun r hr => ?_⟩
  · exact h.mentions r (List.mem_append_left _ (by simpa [Block.mentions] using hr))
  · obtain ⟨hn, hlt⟩ := h.scope r hr
    exact ⟨fun ht => hn (List.mem_append_left _ (Block.targets_singleton inst ▸ ht)), hlt⟩

theorem not_mem_rest (h : Graftable context lanes V bound (inst :: rest)) {r : Nat}
    (hr : r ∈ inst.targets) :
    r ∉ Block.targets rest :=
  fun hr' => (List.nodup_append.mp h.nodup).2.2 r hr r hr' rfl

/-- Behind an instruction, lanes counted anew for what the instruction sets within. -/
theorem behind (h : Graftable context lanes V bound (inst :: rest)) (hb : bound ≤ bound')
    (hl : ∀ r : Nat, r < bound → (r ∈ inst.targets → inst.target? = some r) → lanes' r = lanes r) :
    Graftable context lanes' (inst.define V) bound' rest := by
  have hdefine : ∀ r : Nat, r ∈ inst.define V → r ∉ Block.targets rest ∧ r < bound := by
    rintro r (hr | hr)
    · obtain ⟨hn, hlt⟩ := h.scope r hr
      exact ⟨fun ht => hn (List.mem_append_right _ ht), hlt⟩
    · have ht := Inst.mem_targets_of_target? hr
      exact ⟨h.not_mem_rest ht, h.target_lt (List.mem_append_left _ ht)⟩
  refine ⟨h.admitted.2.congr (fun _ _ hi h => h.congr hi) fun r hr => (hl r ?_ fun ht => ?_).symm,
    h.reads.2, (List.nodup_append.mp h.nodup).2.1, fun r hr => ?_, fun r hr => ?_⟩
  · exact h.mentions r (List.mem_append_right _ hr)
  · rcases Block.mentions_of_scoped h.reads.2 r hr with (hV | ht') | ht'
    · exact absurd (List.mem_append_left _ ht) (h.scope r hV).1
    · exact ht'
    · exact absurd ht' (h.not_mem_rest ht)
  · exact Nat.lt_of_lt_of_le (h.mentions r (List.mem_append_right _ hr)) hb
  · exact ⟨(hdefine r hr).1, Nat.lt_of_lt_of_le (hdefine r hr).2 hb⟩

end Graftable

/-- Code and what becomes of it, with new registers from `bound` up to `bound'`: whenever calls on
both sides are related, the two do alike on frames that agree on what is in scope. -/
structure Grafts [Scalar α] (like : Likeness α)
    (rel : (String → Exec α Unit) → (String → Exec α Unit) → Prop) (context : Context α)
    (lanes : Reg → Nat) (V : Set Reg) (bound bound' : Nat) (old new : Block α) : Prop where
  bound_le : bound ≤ bound'
  admitted : ∃ lanes' : Reg → Nat,
    (∀ r : Nat, r < bound → r ∉ Block.targets old → lanes' r = lanes r) ∧
    Block.Each (fun shape inst => inst.Admitted context lanes' shape) none new
  reads : Block.Scoped false V new
  targets : ∀ r : Nat, r ∈ Block.targets new → r ∈ Block.targets old ∨ bound ≤ r ∧ r < bound'
  nodup : (Block.targets new).Nodup
  mirrors : ∀ {call call' : String → Exec α Unit}, rel call call' →
    ∀ (name : String) {f g : Frame α} {m : Memory α}, Frame.Renames id V f g → f.Typed lanes V →
      like.memories m →
      Mirrors like (fun _ _ => True) (Block.exec call name 0 old f m)
        (Block.exec call' name 0 new g m)

namespace Grafts

variable [Scalar α] {like : Likeness α}
    {rel : (String → Exec α Unit) → (String → Exec α Unit) → Prop}
  {context : Context α} {lanes : Reg → Nat} {V : Set Reg} {bound bound₁ bound' : Nat}
  {inst : Inst α} {part rest new : Block α}

@[simp] theorem nil : Grafts like rel context lanes V bound bound [] [] :=
  ⟨Nat.le_refl _, ⟨lanes, fun _ _ _ => rfl, trivial⟩, trivial,
    by simp [Block.targets], by simp [Block.targets], fun _ _ _ _ _ _ _ hm => .ok trivial hm⟩

theorem keep (hrel : ∀ call call', rel call call' → CallsMirror like call call')
    (hkeeps : ∀ shape (inst : Inst α), inst.Admitted context lanes shape →
      inst.Keeps like.memories shape) (h : Graftable context lanes V bound (inst :: rest))
    (hrest : Grafts like rel context lanes (inst.define V) bound bound' rest new) :
    Grafts like rel context lanes V bound bound' (inst :: rest) (inst :: new) := by
  obtain ⟨lanes', hlanes, hnew⟩ := hrest.admitted
  have hd : (Block.targets ([inst] ++ rest)).Nodup := h.nodup
  have htargets : ∀ r : Nat, r ∈ Block.targets ([inst] ++ new) →
      r ∈ Block.targets ([inst] ++ rest) ∨ bound ≤ r ∧ r < bound' :=
    Block.targets_replaced (fun _ => Or.inl) hrest.targets
  have hnodup : (Block.targets ([inst] ++ new)).Nodup :=
    Block.nodup_replaced hd (fun _ => h.target_lt) (fun _ => Or.inl)
      (fun r hr => (hrest.targets r hr).imp_right And.left)
      (Nat.le_refl _) h.first.nodup hrest.nodup
  refine ⟨hrest.bound_le, ⟨lanes', fun r hr hn => ?_, ?_, hnew⟩, ⟨h.reads.1, hrest.reads⟩, htargets,
    hnodup, ?_⟩
  · exact hlanes r hr fun ht => hn (List.mem_append_right _ ht)
  · refine Inst.Each.congr (fun _ _ hi h => h.congr hi)
      (fun r hr => (hlanes r ?_ ?_).symm) h.admitted.1
    · exact h.mentions r (List.mem_append_left _ hr)
    · rcases Inst.mentions_of_scoped h.reads.1 r hr with hV | ht
      · exact fun ht => (h.scope r hV).1 (List.mem_append_right _ ht)
      · exact h.not_mem_rest ht
  · intro call call' hcall name f g m hf ht hm
    have hinst : Mirrors like (Frame.Renames id (inst.define V)) (inst.exec call name 0 f m)
        ((inst.rename id).exec call' name 0 g m) :=
      Inst.mirrors_rename (hrel _ _ hcall) (fun _ => like.faults_refl _)
        (h.admitted.1.imp hkeeps) h.reads.1 (fun _ _ _ _ he => he) hf hm
    rw [Inst.rename_id] at hinst
    simp only [Block.exec]
    refine (hinst.both (Inst.exec_typed h.admitted.1 h.reads.1 ht) (R := fun _ => True)
      fun _ _ _ => trivial).bind ?_
    rintro f' g' m' ⟨hf', ht', -⟩ hm'
    exact hrest.mirrors hcall name hf' ht' hm'

section Part

variable (h : Graftable context lanes V bound (inst :: rest))
  (hpart : Grafts like rel context lanes V bound bound₁ [inst] part)

include h hpart

/-- What takes the place of an instruction sets nothing that was in scope, or that the code behind
sets. -/
theorem apart {r : Nat} (hr : r ∈ Block.targets part) :
    r ∉ V ∧ r ∉ Block.targets rest ∧ r < bound₁ := by
  have hle := hpart.bound_le
  rcases hpart.targets r hr with ht | ⟨hge, hlt⟩
  · have hinst : r ∈ inst.targets := Block.targets_singleton inst ▸ ht
    have := h.first.target_lt ht
    exact ⟨fun hV => (h.first.scope r hV).1 ht, h.not_mem_rest hinst, by omega⟩
  · refine ⟨fun hV => ?_, fun hr => ?_, hlt⟩
    · have := (h.scope r hV).2
      omega
    · have := h.target_lt (List.mem_append_right _ hr)
      omega

theorem mentions_apart {r : Nat} (hr : r ∈ Block.mentions part) :
    r ∉ Block.targets rest ∧ r < bound₁ := by
  rcases Block.mentions_of_scoped hpart.reads r hr with hV | ht
  · obtain ⟨hn, hlt⟩ := h.scope r hV
    exact ⟨fun hr => hn (List.mem_append_right _ hr), Nat.lt_of_lt_of_le hlt hpart.bound_le⟩
  · exact (apart h hpart ht).2

theorem mirrors_first {lanes₁ : Reg → Nat}
    (hlanes : ∀ r : Nat, r < bound → r ∉ inst.targets → lanes₁ r = lanes r)
    {call call' : String → Exec α Unit} (hcall : rel call call') (name : String) {f g : Frame α}
    {m : Memory α} (hf : Frame.Renames id V f g) (ht : f.Typed lanes V) (hm : like.memories m) :
    Mirrors like (fun f g => Frame.Renames id V f g ∧ f.Typed lanes₁ V)
      (Block.exec call name 0 [inst] f m) (Block.exec call' name 0 part g m) := by
  refine ((hpart.mirrors hcall name hf ht hm).both Block.exec_frame Block.exec_frame).imp ?_
  rintro f' g' ⟨-, hf', hg'⟩
  have hold : ∀ r ∈ V, f'.get? r = f.get? r := fun r hr => hf' r (h.first.scope r hr).1
  refine ⟨fun r hr => ?_, fun r hr => ?_⟩
  · rw [id_eq, hg' r fun ht => (apart h hpart ht).1 hr, hold r hr]
    exact hf r hr
  · obtain ⟨hn, hlt⟩ := h.first.scope r hr
    rw [hold r hr, hlanes r hlt fun ht => hn (Block.targets_singleton inst ▸ ht)]
    exact ht r hr

end Part

/-- An instruction that sets nothing for the code behind it is replaced, before code in which others
are. -/
theorem graft (h : Graftable context lanes V bound (inst :: rest)) (hinst : inst.target? = none)
    (hpart : Grafts like rel context lanes V bound bound₁ [inst] part)
    (hrest : ∀ lanes₁ : Reg → Nat, (∀ r : Nat, r ∈ Block.mentions rest → lanes₁ r = lanes r) →
      Graftable context lanes₁ V bound₁ rest →
      Grafts like rel context lanes₁ V bound₁ bound' rest new) :
    Grafts like rel context lanes V bound bound' (inst :: rest) (part ++ new) := by
  obtain ⟨lanes₁, hlanes₁, hadmitted₁⟩ := hpart.admitted
  rw [Block.targets_singleton] at hlanes₁
  have hkept : ∀ r : Nat, r < bound → (r ∈ inst.targets → inst.target? = some r) →
      lanes₁ r = lanes r := fun r hr hn => hlanes₁ r hr fun ht => by
      rw [hinst] at hn
      cases hn ht
  have hbehind := h.behind hpart.bound_le hkept
  rw [Inst.define_eq_id inst hinst, id_eq] at hbehind
  have hmentions : ∀ r : Nat, r ∈ Block.mentions rest → lanes₁ r = lanes r := by
    refine fun r hr => hlanes₁ r (h.mentions r (List.mem_append_right _ hr)) fun ht => ?_
    rcases Block.mentions_of_scoped hbehind.reads r hr with hV | hr
    · exact (h.scope r hV).1 (List.mem_append_left _ ht)
    · exact h.not_mem_rest ht hr
  obtain ⟨hle, ⟨lanes₂, hlanes₂, hadmitted₂⟩, hreads, htargets₂, hnodup, hmirrors⟩ :=
    hrest lanes₁ hmentions hbehind
  have hle₁ := hpart.bound_le
  have hd : (Block.targets ([inst] ++ rest)).Nodup := h.nodup
  have htargets : ∀ r : Nat, r ∈ Block.targets (part ++ new) →
      r ∈ Block.targets ([inst] ++ rest) ∨ bound ≤ r ∧ r < bound' :=
    Block.targets_replaced (fun r hr => (hpart.targets r hr).imp_right fun hr => by omega)
      fun r hr => (htargets₂ r hr).imp_right fun hr => by omega
  refine ⟨by omega, ⟨lanes₂, fun r hr hn => ?_, Block.each_append.mpr ⟨?_, hadmitted₂⟩⟩,
    Block.scoped_append.mpr ⟨hpart.reads, hreads.mono (fun h => h) (Block.subset_define part V)⟩,
    htargets, Block.nodup_replaced hd (fun _ => h.target_lt) hpart.targets
      (fun r hr => (htargets₂ r hr).imp_right And.left) hle₁ hpart.nodup hnodup, ?_⟩
  · obtain ⟨hn₁, hn₂⟩ := not_or.mp fun hr => hn (List.mem_append.mpr hr)
    rw [hlanes₂ r (by omega) hn₂, hlanes₁ r hr hn₁]
  · refine hadmitted₁.congr (fun _ _ hi h => h.congr hi) fun r hr => ?_
    obtain ⟨hn, hlt⟩ := mentions_apart h hpart hr
    exact (hlanes₂ r hlt hn).symm
  · intro call call' hcall name f g m hf ht hm
    rw [← List.singleton_append, Block.exec_append, Block.exec_append]
    refine (mirrors_first h hpart hlanes₁ hcall name hf ht hm).bind ?_
    exact fun f' g' m' hfg hm' => hmirrors hcall name hfg.1 hfg.2 hm'

end Grafts
end StreamStats
