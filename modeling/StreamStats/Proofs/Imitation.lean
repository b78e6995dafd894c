import StreamStats.Proofs.Lists
import StreamStats.Proofs.Steps

/-! Programs that do what other programs do. Routines are compared one by one, each body under calls
that are themselves alike; by induction on the depth of calls whole programs are alike, and so are
the machines that run them, over all inputs that they are handed. -/

namespace StreamStats

open Exec

variable {α : Type} [Scalar α]

/-- Where calls on the one side end, they end on the other, and memories stay related. -/
def CallsFollow (S : Memory α → Memory α → Prop) (call call' : String → Exec α Unit) : Prop :=
  ∀ name m n, S m n → Follows (fun _ m' _ n' => S m' n') (call name) m (call' name) n

/-- Another routine that does the same to memories that are related. -/
structure Routine.Imitates (S : Memory α → Memory α → Prop) (r r' : Routine α) : Prop where
  name_eq : r'.name = r.name
  body : ∀ call call', CallsFollow S call call' → ∀ m n, S m n →
    Follows (fun _ m' _ n' => S m' n') (Block.exec call r.name 0 r.body RegMap.empty) m
      (Block.exec call' r.name 0 r'.body RegMap.empty) n

namespace Program

theorem find?_of_imitates {S : Memory α → Memory α → Prop} {rs rs' : List (Routine α)}
    (h : List.Forall₂ (Routine.Imitates S) rs rs') {name : String} {r : Routine α}
    (hr : rs.find? (fun r => r.name == name) = some r) :
    ∃ r', rs'.find? (fun r => r.name == name) = some r' ∧ r.Imitates S r' := by
  induction h with
  | nil => cases hr
  | @cons a b as bs hab _ ih =>
    by_cases ha : a.name = name
    · rw [List.find?_cons_of_pos (by simpa using ha)] at hr
      cases hr
      exact ⟨b, List.find?_cons_of_pos (by simpa [hab.name_eq] using ha), hab⟩
    · rw [List.find?_cons_of_neg (by simpa using ha)] at hr
      obtain ⟨r', hr', hi⟩ := ih hr
      exact ⟨r', by rwa [List.find?_cons_of_neg (by simpa [hab.name_eq] using ha)], hi⟩

/-- Routines that are alike one by one make programs alike, however deep calls nest. -/
theorem callsFollow {S : Memory α → Memory α → Prop} {p q : Program α}
    (h : List.Forall₂ (Routine.Imitates S) p.routines q.routines) (depth : Nat) :
    CallsFollow S (p.call depth) (q.call depth) := by
  induction depth with
  | zero =>
    intro name m n _ b m' hc
    cases hc
  | succ depth ih =>
    intro name m n hS
    cases hr : p.routine? name with
    | none =>
      intro b m' hc
      simp only [call, hr] at hc
      cases hc
    | some r =>
      obtain ⟨r', hr', hi⟩ := find?_of_imitates h hr
      have hname : r.name = name := name_of_routine? hr
      have hb := hi.body _ _ ih m n hS
      rw [hname] at hb
      have hr' : q.routine? name = some r' := hr'
      simp only [call, hr, hr', discard]
      exact hb.bind fun _ m' _ n' hS' => Follows.pure hS'

def rewriteAt (p : Program α) (index : Nat) (f : Routine α → Routine α) : Program α :=
  { p with routines := p.routines.modify index f }

/-- A way to compare the memories of two programs, kept by everything that a run does. -/
structure Bridge (entry : String) (p q : Program α) (R : Memory α → Memory α → Prop) : Prop where
  start : R p.initialMemory q.initialMemory
  fits : ∀ {m n}, R m n → m.Fits p.segments ∧ n.Fits p.segments
  output : ∀ {m n}, R m n → ∀ (s : Nat) (seg : Segment α), p.segments[s]? = some seg →
    seg.role = .output → n[s]? = m[s]?
  handIn : ∀ {m n}, R m n → ∀ (s : Nat) (seg : Segment α) (values : Array α),
    p.segments[s]? = some seg → seg.role = .input → values.size = seg.size →
    R (m.setIfInBounds s values) (n.setIfInBounds s values)
  call : ∀ {m n}, R m n →
    Follows (fun _ m' _ n' => R m' n') (p.call callLimit entry) m (q.call callLimit entry) n

/-- What the one program answers, the other answers too. -/
structure Answers (entry : String) (p q : Program α) : Prop where
  segments_eq : q.segments = p.segments
  bridge : ∃ R, Bridge entry p q R

theorem Answers.trans {entry : String} {p q r : Program α} (h : Answers entry p q)
    (h' : Answers entry q r) :
    Answers entry p r := by
  obtain ⟨hs, R, b⟩ := h
  obtain ⟨hs', R', b'⟩ := h'
  refine ⟨hs'.trans hs, fun m n => ∃ k, R m k ∧ R' k n, ⟨_, b.start, b'.start⟩, ?_, ?_, ?_, ?_⟩
  · rintro m n ⟨k, hk, hk'⟩
    exact ⟨(b.fits hk).1, hs ▸ (b'.fits hk').2⟩
  · rintro m n ⟨k, hk, hk'⟩ s seg hseg hrole
    rw [b'.output hk' s seg (hs ▸ hseg) hrole, b.output hk s seg hseg hrole]
  · rintro m n ⟨k, hk, hk'⟩ s seg values hseg hrole hsize
    exact ⟨_, b.handIn hk s seg values hseg hrole hsize, b'.handIn hk' s seg values
      (hs ▸ hseg) hrole hsize⟩
  · rintro m n ⟨k, hk, hk'⟩ u m' hm'
    obtain ⟨u', k', hk₁, hR⟩ := b.call hk u m' hm'
    obtain ⟨u'', n', hn', hR'⟩ := b'.call hk' u' k' hk₁
    exact ⟨u'', n', hn', k', hR, hR'⟩

end Program

def Memory.Same (segments : Array (Segment α)) (m n : Memory α) : Prop := m = n ∧ m.Fits segments

/-- Memories that segments lay out alike, equal but for some segments. -/
structure Memory.SameOff (segments : Array (Segment α)) (D : Set Nat) (m n : Memory α) : Prop where
  left : m.Fits segments
  right : n.Fits segments
  eq : ∀ s ∉ D, n[s]? = m[s]?

omit [Scalar α] in
@[simp] theorem Memory.sameOff_empty {segments : Array (Segment α)} :
    SameOff segments ∅ = Same segments := by
  funext m n
  refine propext ⟨fun h => ?_, ?_⟩
  · have : m = n := Array.ext_getElem? fun s => (h.eq s (by simp)).symm
    exact ⟨this, h.left⟩
  · rintro ⟨rfl, hm⟩
    exact ⟨hm, hm, fun _ _ => rfl⟩

omit [Scalar α] in
theorem Memory.Fits.handIn {segments : Array (Segment α)} {m : Memory α} (h : m.Fits segments)
    {s : Nat} {seg : Segment α} {values : Array α} (hseg : segments[s]? = some seg)
    (hrole : seg.role = .input) (hsize : values.size = seg.size) :
    Memory.Fits segments (m.setIfInBounds s values) := by
  refine ⟨by simp [h.size_eq], fun t seg' ht => ?_, fun t seg' ht hc => ?_⟩
  · rw [← h.sizeOf_eq t seg' ht, Memory.sizeOf, Memory.sizeOf, Array.getElem?_setIfInBounds]
    by_cases hst : s = t
    · subst hst
      have := h.sizeOf_eq s seg hseg
      rw [Memory.sizeOf] at this
      by_cases hlt : s < m.size
      · simp [hlt, hsize] at this ⊢
        omega
      · simp [hlt]
    · rw [if_neg hst]
  · have hne : s ≠ t := by
      rintro rfl
      rw [hseg] at ht
      cases ht
      rw [hrole] at hc
      cases hc
    rw [Array.getElem?_setIfInBounds, if_neg hne]
    exact h.constant t seg' ht hc

namespace Program

variable {p q : Program α} {D : Set Nat} {entry : String}

/-- A call that does the same to memories equal but for some segments makes the programs' answers
equal, if no output is among those segments. -/
theorem answers_of_follows (hs : q.segments = p.segments)
    (hD : ∀ s ∈ D, ∀ seg : Segment α, p.segments[s]? = some seg → seg.role ≠ .output)
    (h : ∀ m n, Memory.SameOff p.segments D m n →
      Follows (fun _ m' _ n' => Memory.SameOff p.segments D m' n') (p.call callLimit entry) m
        (q.call callLimit entry) n) :
    p.Answers entry q := by
  refine ⟨hs, Memory.SameOff p.segments D, ?_, fun hR => ⟨hR.left, hR.right⟩, ?_, ?_, fun hR =>
    h _ _ hR⟩
  · have : q.initialMemory = p.initialMemory := by simp [initialMemory, hs]
    exact ⟨p.fits_initialMemory, this ▸ p.fits_initialMemory, fun _ _ => by rw [this]⟩
  · exact fun hR s seg hseg hrole => hR.eq s fun hs => hD s hs seg hseg hrole
  · intro m n hR s seg values hseg hrole hsize
    refine ⟨hR.left.handIn hseg hrole hsize, hR.right.handIn hseg hrole hsize, fun t ht => ?_⟩
    rw [Array.getElem?_setIfInBounds, Array.getElem?_setIfInBounds, hR.eq t ht, hR.left.size_eq,
      hR.right.size_eq]

theorem answers_of_same (hs : q.segments = p.segments)
    (h : ∀ m n, Memory.Same p.segments m n → Follows (fun _ m' _ n' => Memory.Same p.segments m' n')
      (p.call callLimit entry) m (q.call callLimit entry) n) : p.Answers entry q := by
  rw [← Memory.sameOff_empty] at h
  exact answers_of_follows hs (by simp) h

def Tame (p : Program α) (S : Set α) : Prop := ∀ r ∈ p.routines, r.Tame p.context S

theorem Tame.of_forall₂ {S : Set α} (hs : q.segments = p.segments)
    (h : List.Forall₂ (fun r r' => r'.Tame p.context S ∧
      r.Imitates (Memory.SameOff p.segments D) r') p.routines q.routines)
    (hD : ∀ s ∈ D, ∀ seg : Segment α, p.segments[s]? = some seg → seg.role ≠ .output)
    (entry : String) :
    q.context = p.context ∧ q.Tame S ∧ p.Answers entry q := by
  have hnames : q.routines.map Routine.name = p.routines.map Routine.name := by
    rw [← List.forall₂_eq_eq_eq, List.forall₂_map_left_iff, List.forall₂_map_right_iff]
    exact .flip (h.imp fun _ _ h => h.2.name_eq)
  have hcontext : q.context = p.context := by
    rw [context, context, hs, routineNames, routineNames, hnames]
  refine ⟨hcontext, fun r' hr' => ?_, answers_of_follows hs hD fun m n => ?_⟩
  · obtain ⟨r, -, ht, -⟩ := (forall₂_exists_of_mem h).2 r' hr'
    exact hcontext ▸ ht
  · exact callsFollow (h.imp fun _ _ h => h.2) callLimit entry m n

end Program

section Same

variable {segments : Array (Segment α)} {call call' : String → Exec α Unit}

omit [Scalar α] in
theorem CallsFollow.after_fits (h : CallsFollow (Memory.Same segments) call call') (name : String)
    (m : Memory α) (hm : m.Fits segments) : After (fun _ m' => m'.Fits segments) (call name) m := by
  intro u m' hc
  obtain ⟨_, _, _, rfl, hm'⟩ := h name m m ⟨rfl, hm⟩ u m' hc
  exact hm'

omit [Scalar α] in
theorem CallsFollow.left (h : CallsFollow (Memory.Same segments) call call') :
    CallsFollow (Memory.Same segments) call call := by
  rintro name m n ⟨rfl, hm⟩ u m' hc
  exact ⟨u, m', hc, rfl, h.after_fits name m hm u m' hc⟩

theorem Routine.Imitates.trans {r r' r'' : Routine α} (h : r.Imitates (Memory.Same segments) r')
    (h' : r'.Imitates (Memory.Same segments) r'') : r.Imitates (Memory.Same segments) r'' := by
  refine ⟨h'.name_eq.trans h.name_eq, fun call call' hcall m n hmn u m' hx => ?_⟩
  obtain ⟨u', n', hy, rfl, hm'⟩ := h.body call call hcall.left m n hmn u m' hx
  have hfollows := h'.body call call' hcall n n ⟨rfl, hmn.1 ▸ hmn.2⟩
  rw [h.name_eq] at hfollows
  exact hfollows u' m' hy

end Same

end StreamStats
