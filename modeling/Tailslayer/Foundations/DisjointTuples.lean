import Mathlib.Data.Fin.Tuple.Sort

/-! Families of tuples that share no entry in any column, and their rearrangement into chains. -/
namespace DisjointTuples

variable {ι α : Type*} [LinearOrder α] {k : ℕ}

/-- No entry of a column is used by two tuples. -/
def Disjoint (T : Fin k → ι → α) : Prop := ∀ c, Function.Injective (fun j => T j c)

/-- Every column is strictly increasing. -/
def Chain (S : Fin k → ι → α) : Prop := ∀ c, StrictMono (fun j => S j c)

/-- A condition that only gets easier for a smaller first and a larger second entry. -/
def Lagging (P : α → α → Prop) : Prop := ∀ x x' y y', x' ≤ x → y ≤ y' → P x y → P x' y'

theorem Chain.disjoint {S : Fin k → ι → α} (h : Chain S) : Disjoint S :=
  fun c => (h c).injective

/-- A permutation cannot send all of `j, j + 1, ..` beyond `j`. -/
theorem exists_le_of_perm (σ : Equiv.Perm (Fin k)) (j : Fin k) : ∃ i, j ≤ i ∧ σ i ≤ j := by
  by_contra hno
  have hmaps : ∀ i ∈ Finset.Ici j, σ i ∈ Finset.Ioi j := by
    intro i hi
    rw [Finset.mem_Ici] at hi
    rw [Finset.mem_Ioi]
    exact lt_of_not_ge (fun hle => hno ⟨i, hi, hle⟩)
  have hle := Finset.card_le_card_of_injOn σ hmaps σ.injective.injOn
  rw [Fin.card_Ici, Fin.card_Ioi] at hle
  have hj := j.isLt
  omega

/-- The tuples rearranged so that every column increases. -/
def sorted (T : Fin k → ι → α) : Fin k → ι → α :=
  fun j c => T (Tuple.sort (fun i => T i c) j) c

theorem chain_sorted {T : Fin k → ι → α} (h : Disjoint T) : Chain (sorted T) := by
  intro c
  have hmono : Monotone (fun j => sorted T j c) := Tuple.monotone_sort (fun i => T i c)
  have hinj : Function.Injective (fun j => sorted T j c) :=
    (h c).comp (Tuple.sort (fun i => T i c)).injective
  exact hmono.strictMono_of_injective hinj

/-- Sorting the columns keeps every lagging condition between two columns. -/
theorem sorted_of_lagging {T : Fin k → ι → α} {P : α → α → Prop} (hP : Lagging P) (c d : ι)
    (h : ∀ i, P (T i c) (T i d)) (j : Fin k) : P (sorted T j c) (sorted T j d) := by
  -- the rank in column `d` of the tuple of rank `i` in column `c`
  let rank : Equiv.Perm (Fin k) :=
    (Tuple.sort (fun i => T i c)).trans (Tuple.sort (fun i => T i d)).symm
  obtain ⟨i, hji, hij⟩ := exists_le_of_perm rank j
  have hc : sorted T j c ≤ sorted T i c := Tuple.monotone_sort (fun i => T i c) hji
  have hd : sorted T (rank i) d ≤ sorted T j d := Tuple.monotone_sort (fun i => T i d) hij
  have hsame : sorted T (rank i) d = T (Tuple.sort (fun i => T i c) i) d := by
    simp [sorted, rank]
  rw [hsame] at hd
  exact hP _ _ _ _ hc hd (h _)

/-- Every entry of the sorted family is an entry of its column. -/
theorem sorted_of_forall (T : Fin k → ι → α) {P : α → Prop} (c : ι) (h : ∀ i, P (T i c))
    (j : Fin k) : P (sorted T j c) := h _

end DisjointTuples
