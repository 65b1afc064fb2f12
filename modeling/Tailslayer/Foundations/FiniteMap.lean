import Mathlib.Data.Finmap
import Mathlib.Algebra.BigOperators.Group.Finset.Basic

/-! Finite maps with a plain value type: subscripts, sizes, totals, and value-wise images. -/
namespace FiniteMap

abbrev Map (κ : Type*) (V : Type*) := Finmap (fun _ : κ => V)

section Images

variable {κ V W : Type*}

/-- Applying a function to every value keeps the keys. -/
def mapValues (f : V → W) (m : Map κ V) : Map κ W :=
  ⟨m.entries.map (fun e => ⟨e.1, f e.2⟩), by
    have h := Multiset.nodup_keys.mpr m.nodupKeys
    apply Multiset.nodup_keys.mp
    simpa [Multiset.keys, Multiset.map_map, Function.comp_def] using h⟩

@[simp] theorem keys_mapValues (f : V → W) (m : Map κ V) : (mapValues f m).keys = m.keys := by
  apply Finset.val_injective
  simp [mapValues, Finmap.keys, Multiset.keys, Multiset.map_map]

@[simp] theorem mem_mapValues {f : V → W} {m : Map κ V} {k : κ} :
    k ∈ mapValues f m ↔ k ∈ m := by
  rw [← Finmap.mem_keys, keys_mapValues, Finmap.mem_keys]

/-- The number of entries. -/
def size (m : Map κ V) : ℕ := m.keys.card

/-- The sum of a weight over all values. -/
def total (w : V → ℕ) (m : Map κ V) : ℕ := (m.entries.map (fun e => w e.2)).sum

/-- Some value satisfies a predicate. -/
def AnyValue (p : V → Prop) (m : Map κ V) : Prop := ∃ e ∈ m.entries, p e.2

instance (p : V → Prop) [DecidablePred p] (m : Map κ V) : Decidable (AnyValue p m) :=
  @Multiset.decidableExistsMultiset _ m.entries (fun e => p e.2) (fun _ => inferInstance)

@[simp] theorem total_empty (w : V → ℕ) : total w (∅ : Map κ V) = 0 := rfl

theorem total_mapValues (w : W → ℕ) (f : V → W) (m : Map κ V) :
    total w (mapValues f m) = total (fun v => w (f v)) m := by
  simp [total, mapValues, Multiset.map_map]

@[simp] theorem size_mapValues (f : V → W) (m : Map κ V) : size (mapValues f m) = size m := by
  simp [size]

end Images

variable {κ V W : Type*} [DecidableEq κ] {m : Map κ V} {k a : κ} {v : V}

@[simp] theorem lookup_mapValues (f : V → W) :
    (mapValues f m).lookup k = (m.lookup k).map f := by
  cases h : m.lookup k with
  | none =>
    rw [Finmap.lookup_eq_none] at h
    simpa [Finmap.lookup_eq_none] using h
  | some v =>
    rw [Finmap.lookup_eq_some_iff] at h
    simp only [Option.map_some, Finmap.lookup_eq_some_iff, mapValues, Multiset.mem_map]
    exact ⟨_, h, rfl⟩

theorem anyValue_iff {p : V → Prop} : AnyValue p m ↔ ∃ k v, m.lookup k = some v ∧ p v := by
  constructor
  · rintro ⟨e, he, hp⟩
    exact ⟨e.1, e.2, Finmap.lookup_eq_some_iff.mpr he, hp⟩
  · rintro ⟨k, v, hv, hp⟩
    exact ⟨⟨k, v⟩, Finmap.lookup_eq_some_iff.mp hv, hp⟩

theorem lookup_insert_ite (m : Map κ V) (k : κ) (v : V) (a : κ) :
    (m.insert k v).lookup a = if a = k then some v else m.lookup a := by
  by_cases h : a = k
  · subst a
    simp
  · simp [h]

theorem lookup_erase_ite (m : Map κ V) (k a : κ) :
    (m.erase k).lookup a = if a = k then none else m.lookup a := by
  by_cases h : a = k
  · subst a
    simp
  · simp [h]

theorem exists_mem_of_ne_empty (h : m ≠ ∅) : ∃ k, k ∈ m := by
  by_contra hn
  apply h
  apply Finmap.ext_lookup
  intro x
  rw [Finmap.lookup_empty, Finmap.lookup_eq_none]
  exact fun hx => hn ⟨x, hx⟩

theorem eq_empty_iff : m = ∅ ↔ ∀ k, k ∉ m := by
  constructor
  · rintro rfl k
    exact Finmap.notMem_empty
  · intro h
    by_contra hne
    obtain ⟨k, hk⟩ := exists_mem_of_ne_empty hne
    exact h k hk

theorem insert_of_lookup (h : m.lookup k = some v) : m.insert k v = m := by
  apply Finmap.ext_lookup
  intro x
  rw [lookup_insert_ite]
  split
  · next hx => rw [hx, h]
  · rfl

theorem insert_erase_of_lookup (h : m.lookup k = some v) : (m.erase k).insert k v = m := by
  apply Finmap.ext_lookup
  intro x
  rw [lookup_insert_ite, lookup_erase_ite]
  split
  · next hx => rw [hx, h]
  · rfl

theorem erase_insert (m : Map κ V) (k : κ) (v : V) : (m.insert k v).erase k = m.erase k := by
  apply Finmap.ext_lookup
  intro x
  simp only [lookup_erase_ite, lookup_insert_ite]
  split <;> rfl

theorem erase_of_notMem (h : k ∉ m) : m.erase k = m := by
  apply Finmap.ext_lookup
  intro x
  rw [lookup_erase_ite]
  split
  · next hx => rw [hx, Finmap.lookup_eq_none.mpr h]
  · rfl

/-! The subscript of a map whose missing entries spring into being with a default value. -/

section Subscript

variable [Inhabited V]

/-- The value a subscript yields. -/
def value (k : κ) (m : Map κ V) : V := (m.lookup k).getD default

/-- The map after the value under a subscript was updated. -/
def adjust (k : κ) (f : V → V) (m : Map κ V) : Map κ V := m.insert k (f (value k m))

/-- The map after a bare subscript: a missing entry has been created. -/
def touch (k : κ) (m : Map κ V) : Map κ V := adjust k id m

theorem value_of_lookup (h : m.lookup k = some v) : value k m = v := by
  simp [value, h]

theorem lookup_of_mem (h : k ∈ m) : m.lookup k = some (value k m) := by
  obtain ⟨v, hv⟩ := Finmap.mem_iff.mp h
  rw [value_of_lookup hv, hv]

theorem touch_of_mem (h : k ∈ m) : touch k m = m :=
  insert_of_lookup (lookup_of_mem h)

theorem lookup_adjust (f : V → V) (m : Map κ V) (k a : κ) :
    (adjust k f m).lookup a = if a = k then some (f (value k m)) else m.lookup a :=
  lookup_insert_ite m k _ a

@[simp] theorem value_insert (m : Map κ V) (k : κ) (v : V) : value k (m.insert k v) = v := by
  simp [value]

@[simp] theorem value_adjust (f : V → V) (m : Map κ V) (k : κ) :
    value k (adjust k f m) = f (value k m) := by
  simp [value, adjust]

/-- Every element of a list is pushed onto the value under its key. -/
def collect {ι : Type*} (key : ι → κ) (push : V → ι → V) (xs : List ι) (m : Map κ V) : Map κ V :=
  xs.foldl (fun m x => adjust (key x) (fun v => push v x) m) m

/-- Collecting leaves each key with the elements of that key, pushed in their order. -/
theorem lookup_collect {ι : Type*} (key : ι → κ) (push : V → ι → V) (xs : List ι) (m : Map κ V)
    (k : κ) :
    (collect key push xs m).lookup k =
      if xs.filter (fun x => key x = k) = [] then m.lookup k
      else some ((xs.filter (fun x => key x = k)).foldl push (value k m)) := by
  induction xs generalizing m with
  | nil => simp [collect]
  | cons x xs ih =>
    change (collect key push xs (adjust (key x) (fun v => push v x) m)).lookup k = _
    rw [ih]
    by_cases hx : key x = k
    · subst k
      by_cases hn : xs.filter (fun y => key y = key x) = [] <;>
        simp [hn, lookup_adjust]
    · have hv : value k (adjust (key x) (fun v => push v x) m) = value k m := by
        simp [value, lookup_adjust, Ne.symm hx]
      by_cases hn : xs.filter (fun y => key y = k) = [] <;>
        simp [hn, hx, hv, lookup_adjust, Ne.symm hx]

end Subscript

/-! Sizes and totals under single-entry updates. -/

theorem size_insert_of_notMem (h : k ∉ m) : size (m.insert k v) = size m + 1 := by
  have hk : (m.insert k v).keys = insert k m.keys := by
    ext x
    simp [Finmap.mem_keys, Finmap.mem_insert]
  have hnot : k ∉ m.keys := by rwa [Finmap.mem_keys]
  rw [size, hk, Finset.card_insert_of_notMem hnot, size]

theorem size_erase_of_mem (h : k ∈ m) : size (m.erase k) + 1 = size m := by
  rw [size, Finmap.keys_erase]
  exact Finset.card_erase_add_one (Finmap.mem_keys.mpr h)

theorem size_eq_zero_iff : size m = 0 ↔ m = ∅ := by
  constructor
  · intro h
    have hk : m.keys = ∅ := Finset.card_eq_zero.mp h
    apply eq_empty_iff.mpr
    intro k hm
    rw [← Finmap.mem_keys, hk] at hm
    simp at hm
  · rintro rfl
    rfl

theorem total_insert_of_notMem (w : V → ℕ) (h : k ∉ m) :
    total w (m.insert k v) = w v + total w m := by
  simp [total, Finmap.entries_insert_of_notMem h]

theorem total_erase_of_lookup (w : V → ℕ) (h : m.lookup k = some v) :
    w v + total w (m.erase k) = total w m := by
  have hi := total_insert_of_notMem (v := v) w (Finmap.notMem_erase_self (a := k) (s := m))
  rw [insert_erase_of_lookup h] at hi
  exact hi.symm

theorem total_insert_of_lookup (w : V → ℕ) {u : V} (h : m.lookup k = some u) :
    w u + total w (m.insert k v) = w v + total w m := by
  have hi := total_insert_of_notMem (v := v) w (Finmap.notMem_erase_self (a := k) (s := m))
  have he : (m.erase k).insert k v = m.insert k v := by
    apply Finmap.ext_lookup
    intro x
    simp only [lookup_insert_ite, lookup_erase_ite]
    split <;> rfl
  rw [he] at hi
  have ht := total_erase_of_lookup w h
  omega

/-- A total as a sum over the keys. -/
theorem total_eq_sum [Inhabited V] (w : V → ℕ) (m : Map κ V) :
    total w m = ∑ k ∈ m.keys, w (value k m) := by
  have he : ∀ e ∈ m.entries, w e.2 = w (value e.1 m) := by
    intro e he
    rw [value_of_lookup (Finmap.lookup_eq_some_iff.mpr he)]
  rw [total, Multiset.map_congr rfl he]
  simp [Finset.sum, Finmap.keys, Multiset.keys, Multiset.map_map]

/-! Totals of maps that grow by subscripts. -/

variable [Inhabited V]

theorem total_adjust (w : V → ℕ) (h0 : w default = 0) (f : V → V) (m : Map κ V) (k : κ) :
    w (value k m) + total w (adjust k f m) = w (f (value k m)) + total w m := by
  by_cases hk : k ∈ m
  · exact total_insert_of_lookup w (lookup_of_mem hk)
  · have hv : value k m = default := by
      rw [value, Finmap.lookup_eq_none.mpr hk]
      rfl
    rw [adjust, total_insert_of_notMem w hk, hv, h0]
    omega

/-- Pushing elements that weigh one adds as many to the total. -/
theorem total_collect {ι : Type*} (w : V → ℕ) (h0 : w default = 0) (key : ι → κ)
    (push : V → ι → V) (hp : ∀ v x, w (push v x) = w v + 1) (xs : List ι) (m : Map κ V) :
    total w (collect key push xs m) = xs.length + total w m := by
  induction xs generalizing m with
  | nil => simp [collect]
  | cons x xs ih =>
    change total w (collect key push xs (adjust (key x) (fun v => push v x) m)) = _
    have hm := total_adjust w h0 (fun v => push v x) m (key x)
    rw [hp] at hm
    rw [ih, List.length_cons]
    omega

end FiniteMap
