import Mathlib.Data.Nat.Notation
import Mathlib.Logic.Function.Iterate
import Mathlib.Order.Lattice.Nat
import Mathlib.Tactic.Common

/-! The first longest run of successive values in a sequence with gaps, found by one scan. -/
namespace LongestRun

variable {α : Type*}

structure Segment (α : Type*) where
  start : ℕ
  first : α
  length : ℕ

/-- The entries of the segment are the successors of its first one. -/
def Segment.Holds (next : α → α) (f : ℕ → Option α) (g : Segment α) : Prop :=
  ∀ k, k < g.length → f (g.start + k) = some (next^[k] g.first)

def Segment.stop (g : Segment α) : ℕ := g.start + g.length

/-- The run that ends at the current position, and the best run so far. -/
structure Scan (α : Type*) where
  current : Segment α
  best : Segment α

variable [Inhabited α]

def Segment.empty : Segment α := ⟨0, default, 0⟩

variable [DecidableEq α]

/-- The run that ends with the entry `a` at position `j`. -/
def Segment.grow (next : α → α) (g : Segment α) (j : ℕ) (a : α) : Segment α :=
  if 0 < g.length ∧ a = next^[g.length] g.first then { g with length := g.length + 1 }
  else ⟨j, a, 1⟩

def Scan.step (next : α → α) (j : ℕ) (s : Scan α) : Option α → Scan α
  | none => { s with current := .empty }
  | some a =>
    let current := s.current.grow next j a
    ⟨current, if s.best.length < current.length then current else s.best⟩

def scan (next : α → α) (f : ℕ → Option α) : ℕ → Scan α
  | 0 => ⟨.empty, .empty⟩
  | j + 1 => (scan next f j).step next j (f j)

variable {next : α → α} {f : ℕ → Option α} {g : Segment α} {s : Scan α} {j : ℕ} {a : α}

omit [DecidableEq α] in
theorem holds_empty : (Segment.empty : Segment α).Holds next f := by
  intro k hk
  cases hk

omit [Inhabited α] [DecidableEq α] in
/-- The beginning of a run is a run. -/
theorem Segment.Holds.take {m : ℕ} (h : g.Holds next f) (hm : m ≤ g.length) :
    ({ g with length := m } : Segment α).Holds next f := by
  intro k hk
  exact h k (Nat.lt_of_lt_of_le hk hm)

/-- A run from which the scan may go on: no run that ends here is longer. -/
structure Current (next : α → α) (f : ℕ → Option α) (j : ℕ) (g : Segment α) : Prop where
  holds : g.Holds next f
  stop : 0 < g.length → g.stop = j
  longest : ∀ g' : Segment α, g'.Holds next f → g'.stop = j → g'.length ≤ g.length

omit [DecidableEq α] in
theorem current_empty : Current next f 0 (.empty : Segment α) where
  holds := holds_empty
  stop := by
    intro h
    cases h
  longest := by
    intro g' _ hs
    unfold Segment.stop at hs
    exact Nat.le_trans (by omega) (Nat.zero_le _)

omit [DecidableEq α] in
/-- After a gap no run is left. -/
theorem current_gap (ha : f j = none) : Current next f (j + 1) (.empty : Segment α) where
  holds := holds_empty
  stop := by
    intro h
    cases h
  longest := by
    intro g' h' hs
    unfold Segment.stop at hs
    by_contra hlt
    have hlast := h' (g'.length - 1) (by change ¬ g'.length ≤ 0 at hlt; omega)
    have hj : g'.start + (g'.length - 1) = j := by
      change ¬ g'.length ≤ 0 at hlt
      omega
    rw [hj, ha] at hlast
    cases hlast

omit [Inhabited α] [DecidableEq α] in
/-- An entry that ends a run of two or more entries also continues the run in front of it. -/
theorem Segment.Holds.continues {g' : Segment α} (h : g.Holds next f) (hpos : 0 < g.length)
    (hstop : g.stop = j) (h' : g'.Holds next f) (hlong : 1 < g'.length)
    (hstop' : g'.stop = j + 1) (ha : f j = some a) : a = next^[g.length] g.first := by
  unfold Segment.stop at hstop hstop'
  have hlast := h' (g'.length - 1) (by omega)
  have hprev := h' (g'.length - 2) (by omega)
  have hown := h (g.length - 1) (by omega)
  have hj : g'.start + (g'.length - 1) = j := by omega
  have hj' : g'.start + (g'.length - 2) = g.start + (g.length - 1) := by omega
  rw [hj, ha] at hlast
  rw [hj', hown] at hprev
  calc a = next^[g'.length - 2 + 1] g'.first := by
        rw [Option.some.inj hlast]
        congr 1
        omega
    _ = next (next^[g.length - 1] g.first) := by
        rw [Function.iterate_succ_apply', Option.some.inj hprev]
    _ = next^[g.length - 1 + 1] g.first := (Function.iterate_succ_apply' next _ _).symm
    _ = next^[g.length] g.first := by rw [Nat.sub_add_cancel hpos]

omit [Inhabited α] [DecidableEq α] in
/-- A run that ends after the entry is at most one longer than the current one. -/
theorem Current.length_le {g' : Segment α} (h : Current next f j g) (h' : g'.Holds next f)
    (hs : g'.stop = j + 1) : g'.length ≤ g.length + 1 := by
  unfold Segment.stop at hs
  rcases Nat.eq_zero_or_pos g'.length with h0 | hpos
  · exact h0 ▸ Nat.zero_le _
  · have hle := h.longest _ (h'.take (Nat.sub_le g'.length 1))
      (by change g'.start + (g'.length - 1) = j; omega)
    change g'.length - 1 ≤ g.length at hle
    omega

omit [Inhabited α] [DecidableEq α] in
theorem current_continue (h : Current next f j g) (ha : f j = some a) (hpos : 0 < g.length)
    (hnext : a = next^[g.length] g.first) :
    Current next f (j + 1) { g with length := g.length + 1 } where
  holds := by
    intro k hk
    change k < g.length + 1 at hk
    rcases Nat.lt_succ_iff_lt_or_eq.mp hk with hk | rfl
    · exact h.holds k hk
    · have hstop : g.start + g.length = j := h.stop hpos
      change f (g.start + g.length) = some (next^[g.length] g.first)
      rw [hstop, ha, hnext]
  stop := by
    intro _
    have hstop : g.start + g.length = j := h.stop hpos
    change g.start + (g.length + 1) = j + 1
    omega
  longest := fun _ h' hs => h.length_le h' hs

omit [Inhabited α] [DecidableEq α] in
theorem current_restart (h : Current next f j g) (ha : f j = some a)
    (hno : ¬ (0 < g.length ∧ a = next^[g.length] g.first)) :
    Current next f (j + 1) (⟨j, a, 1⟩ : Segment α) where
  holds := by
    intro k hk
    obtain rfl : k = 0 := Nat.lt_one_iff.mp hk
    exact ha
  stop := fun _ => rfl
  longest := by
    intro g' h' hs
    change g'.length ≤ 1
    by_contra hlt
    -- a longer run would have ended here already, and the entry would continue it
    have hle := h.length_le h' hs
    have hpos : 0 < g.length := by omega
    exact hno ⟨hpos, h.holds.continues hpos (h.stop hpos) h' (Nat.not_le.mp hlt) hs ha⟩

omit [Inhabited α] in
/-- The grown run holds, ends at the entry, and is the longest of those that do. -/
theorem current_grow (h : Current next f j g) (ha : f j = some a) :
    Current next f (j + 1) (g.grow next j a) := by
  by_cases hg : 0 < g.length ∧ a = next^[g.length] g.first
  · rw [Segment.grow, if_pos hg]
    exact current_continue h ha hg.1 hg.2
  · rw [Segment.grow, if_neg hg]
    exact current_restart h ha hg

/-- The state of the scan in front of position `j`. -/
structure Scanned (next : α → α) (f : ℕ → Option α) (j : ℕ) (s : Scan α) : Prop where
  current : Current next f j s.current
  holds : s.best.Holds next f
  stop : s.best.stop ≤ j
  longest : ∀ g : Segment α, g.Holds next f → g.stop ≤ j → g.length ≤ s.best.length
  first : ∀ g : Segment α, g.Holds next f → g.stop ≤ j → g.length = s.best.length →
    0 < g.length → s.best.start ≤ g.start

theorem scanned_gap (h : Scanned next f j s) (ha : f j = none) :
    Scanned next f (j + 1) (s.step next j none) := by
  have hcur : Current next f (j + 1) Segment.empty := current_gap ha
  have hearlier : ∀ g : Segment α, g.Holds next f → g.stop ≤ j + 1 → 0 < g.length →
      g.stop ≤ j := by
    intro g hg hs hpos
    by_contra hlt
    have hle := hcur.longest g hg (by omega)
    change g.length ≤ 0 at hle
    omega
  refine ⟨hcur, h.holds, Nat.le_succ_of_le h.stop, ?_, ?_⟩
  · intro g hg hs
    rcases Nat.eq_zero_or_pos g.length with h0 | hpos
    · exact h0 ▸ Nat.zero_le _
    · exact h.longest g hg (hearlier g hg hs hpos)
  · intro g hg hs he hpos
    exact h.first g hg (hearlier g hg hs hpos) he hpos

theorem scanned_grow (h : Scanned next f j s) (ha : f j = some a) :
    Scanned next f (j + 1) (s.step next j (some a)) := by
  have hcur := current_grow h.current ha
  change Scanned next f (j + 1) ⟨s.current.grow next j a,
    if s.best.length < (s.current.grow next j a).length then s.current.grow next j a else s.best⟩
  generalize s.current.grow next j a = c at hcur
  have hsplit : ∀ g : Segment α, g.stop ≤ j + 1 → g.stop ≤ j ∨ g.stop = j + 1 := by
    intro g hs
    omega
  by_cases hlt : s.best.length < c.length
  · have hstop := hcur.stop (by omega)
    rw [if_pos hlt]
    refine ⟨hcur, hcur.holds, hstop.le, ?_, ?_⟩
    · intro g hg hs
      rcases hsplit g hs with hs | hs
      · exact (h.longest g hg hs).trans hlt.le
      · exact hcur.longest g hg hs
    · intro g hg hs he hpos
      change g.length = c.length at he
      change c.start ≤ g.start
      have hg' := hcur.longest g hg
      have hold := h.longest g hg
      unfold Segment.stop at hs hstop hg' hold
      omega
  · rw [if_neg hlt]
    refine ⟨hcur, h.holds, Nat.le_succ_of_le h.stop, ?_, ?_⟩
    · intro g hg hs
      rcases hsplit g hs with hs | hs
      · exact h.longest g hg hs
      · exact (hcur.longest g hg hs).trans (Nat.not_lt.mp hlt)
    · intro g hg hs he hpos
      rcases hsplit g hs with hs | hs
      · exact h.first g hg hs he hpos
      · have hb := h.stop
        change g.length = s.best.length at he
        change s.best.start ≤ g.start
        unfold Segment.stop at hs hb
        omega

/-- The scan finds the first longest run. -/
theorem scanned_scan (next : α → α) (f : ℕ → Option α) (j : ℕ) :
    Scanned next f j (scan next f j) := by
  induction j with
  | zero =>
    refine ⟨current_empty, holds_empty, Nat.le_refl 0, ?_, ?_⟩
    · intro g _ hs
      unfold Segment.stop at hs
      exact Nat.le_trans (by omega) (Nat.zero_le _)
    · intro g _ hs _ hpos
      unfold Segment.stop at hs
      omega
  | succ j ih =>
    cases ha : f j with
    | none => simpa only [scan, ha] using scanned_gap ih ha
    | some a => simpa only [scan, ha] using scanned_grow ih ha

/-- The best run never gets shorter. -/
theorem length_best_mono (next : α → α) (f : ℕ → Option α) {i j : ℕ} (h : i ≤ j) :
    (scan next f i).best.length ≤ (scan next f j).best.length := by
  have hi := scanned_scan next f i
  exact (scanned_scan next f j).longest _ hi.holds (hi.stop.trans h)

/-- Where the best run reaches `m` entries for the first time, it has no more of them, and no run
in front of it reaches as many. -/
theorem best_of_first {m : ℕ} (hm : 0 < m) (hd : m ≤ (scan next f j).best.length)
    (hfirst : ∀ i, i < j → (scan next f i).best.length < m) :
    (scan next f j).best.length = m ∧ ∀ g : Segment α, g.Holds next f → m ≤ g.length →
      (scan next f j).best.start ≤ g.start := by
  have h := scanned_scan next f j
  have hstop : (scan next f j).best.start + (scan next f j).best.length ≤ j := h.stop
  have hlast := hfirst (j - 1) (by omega)
  -- one position earlier all but the last entry had been seen
  have hshort := (scanned_scan next f (j - 1)).longest _
    (h.holds.take (Nat.sub_le (scan next f j).best.length 1))
    (by change (scan next f j).best.start + ((scan next f j).best.length - 1) ≤ j - 1; omega)
  change (scan next f j).best.length - 1 ≤ _ at hshort
  refine ⟨by omega, ?_⟩
  intro g hg hlong
  by_contra hlt
  have hprefix := (scanned_scan next f (g.start + m)).longest _ (hg.take hlong) (Nat.le_refl _)
  have hseen := hfirst (g.start + m) (by omega)
  change m ≤ _ at hprefix
  omega

/-- A run of the whole sequence is found exactly when there are no gaps in it. -/
theorem length_best_eq_iff (next : α → α) (f : ℕ → Option α) (n : ℕ) :
    (scan next f n).best.length = n ↔ ∃ a, ∀ k, k < n → f k = some (next^[k] a) := by
  have h := scanned_scan next f n
  constructor
  · intro he
    have hstop := h.stop
    have hholds := h.holds
    unfold Segment.stop at hstop
    refine ⟨(scan next f n).best.first, ?_⟩
    intro k hk
    have h0 : (scan next f n).best.start = 0 := by omega
    have hk' := hholds k (by omega)
    rwa [h0, Nat.zero_add] at hk'
  · rintro ⟨a, hall⟩
    have hle := h.longest ⟨0, a, n⟩ (fun k hk => (Nat.zero_add k).symm ▸ hall k hk)
      (Nat.zero_add n).le
    have hstop := h.stop
    unfold Segment.stop at hstop
    change n ≤ _ at hle
    omega

end LongestRun
