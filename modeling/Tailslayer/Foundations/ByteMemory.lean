import Mathlib.Data.List.Basic
import Mathlib.Tactic.Common

/-! Byte-addressed memory with stores and loads of fixed-size objects. -/

abbrev ByteMemory := ℕ → UInt8

/-- The bytes of an object. -/
abbrev Bytes (n : ℕ) := Fin n → UInt8

namespace ByteMemory

variable {n : ℕ} {a b : ℕ} {v w : Bytes n} {m : ByteMemory}

def store (a : ℕ) (v : Bytes n) (m : ByteMemory) : ByteMemory := fun x =>
  if h : a ≤ x ∧ x < a + n then v ⟨x - a, by omega⟩ else m x

def load (n : ℕ) (a : ℕ) (m : ByteMemory) : Bytes n := fun i => m (a + i)

/-- `memset` -/
def fill (a : ℕ) (byte : UInt8) (length : ℕ) (m : ByteMemory) : ByteMemory := fun x =>
  if a ≤ x ∧ x < a + length then byte else m x

/-- Two objects of `n` bytes do not share a byte. -/
def Apart (n a b : ℕ) : Prop := a + n ≤ b ∨ b + n ≤ a

@[simp] theorem load_store (a : ℕ) (v : Bytes n) (m : ByteMemory) :
    load n a (store a v m) = v := by
  funext i
  have hi := i.isLt
  simp [load, store]

theorem load_store_of_apart (h : Apart n a b) : load n b (store a v m) = load n b m := by
  funext i
  have hi := i.isLt
  have hn : ¬ (a ≤ b + i ∧ b + i < a + n) := by
    rintro ⟨h₁, h₂⟩
    rcases h with h | h <;> omega
  simp only [load, store, dif_neg hn]

/-- A store is one of each byte. -/
theorem store_eq_foldl (a : ℕ) (v : Bytes n) (m : ByteMemory) : store a v m =
    (List.finRange n).foldl (fun m (i : Fin n) => Function.update m (a + i) (v i)) m := by
  have hlist : ∀ (is : List (Fin n)) (m : ByteMemory) (x : ℕ),
      is.foldl (fun m (i : Fin n) => Function.update m (a + i) (v i)) m x =
        if h : ∃ i ∈ is, x = a + i.val then v ⟨x - a, by omega⟩ else m x := by
    intro is
    induction is with
    | nil => simp
    | cons i is ih =>
      intro m x
      rw [List.foldl_cons, ih]
      by_cases hin : ∃ k ∈ is, x = a + k.val
      · obtain ⟨k, hk, rfl⟩ := hin
        rw [dif_pos ⟨k, hk, rfl⟩, dif_pos ⟨k, List.mem_cons_of_mem i hk, rfl⟩]
      · rw [dif_neg hin, Function.update_apply]
        by_cases hx : x = a + i
        · subst hx
          rw [if_pos rfl, dif_pos ⟨i, List.mem_cons_self, rfl⟩]
          congr 1
          exact Fin.ext (by simp)
        · rw [if_neg hx, dif_neg]
          rintro ⟨k, hk, rfl⟩
          rcases List.mem_cons.mp hk with rfl | hk
          · exact hx rfl
          · exact hin ⟨k, hk, rfl⟩
  funext x
  rw [hlist, store]
  by_cases hx : a ≤ x ∧ x < a + n
  · rw [dif_pos hx, dif_pos ⟨⟨x - a, by omega⟩, List.mem_finRange _, by simp; omega⟩]
  · rw [dif_neg hx, dif_neg]
    rintro ⟨i, -, rfl⟩
    have hi := i.isLt
    omega

/-- One value stored at every address of a list. -/
def storeAll (as : List ℕ) (v : Bytes n) (m : ByteMemory) : ByteMemory :=
  as.foldl (fun m a => store a v m) m

theorem load_storeAll_of_apart (as : List ℕ) (m : ByteMemory) (h : ∀ a ∈ as, Apart n a b) :
    load n b (storeAll as v m) = load n b m := by
  induction as generalizing m with
  | nil => rfl
  | cons a as ih =>
    change load n b (storeAll as v (store a v m)) = _
    rw [ih _ (fun x hx => h x (by simp [hx])), load_store_of_apart (h a (by simp))]

/-- A stored copy is read back, whichever other copies follow it. -/
theorem load_storeAll_of_mem (as : List ℕ) (m : ByteMemory) (hb : b ∈ as)
    (h : ∀ a ∈ as, a = b ∨ Apart n a b) : load n b (storeAll as v m) = v := by
  induction as generalizing m with
  | nil => cases hb
  | cons a as ih =>
    change load n b (storeAll as v (store a v m)) = v
    by_cases hin : b ∈ as
    · exact ih _ hin (fun x hx => h x (by simp [hx]))
    · obtain rfl : b = a := by
        rcases List.mem_cons.mp hb with hb | hb
        · exact hb
        · exact (hin hb).elim
      rw [load_storeAll_of_apart, load_store]
      intro x hx
      rcases h x (by simp [hx]) with rfl | hap
      · exact (hin hx).elim
      · exact hap

/-! What an access leaves alone, byte by byte. -/

/-- The two memories have the same bytes from `lo` on, `k` of them. -/
def AgreeOn (lo k : ℕ) (m m' : ByteMemory) : Prop := ∀ x, lo ≤ x → x < lo + k → m x = m' x

theorem AgreeOn.trans {lo k : ℕ} {m m' m'' : ByteMemory} (h : AgreeOn lo k m m')
    (h' : AgreeOn lo k m' m'') : AgreeOn lo k m m'' :=
  fun x hlo hhi => (h x hlo hhi).trans (h' x hlo hhi)

theorem AgreeOn.load_eq {lo k : ℕ} {m m' : ByteMemory} (h : AgreeOn lo k m m') (hlo : lo ≤ a)
    (hhi : a + n ≤ lo + k) : load n a m = load n a m' := by
  funext i
  have hi := i.isLt
  exact h _ (by omega) (by omega)

theorem agreeOn_store {lo k : ℕ} (v : Bytes n) (m : ByteMemory)
    (h : a + n ≤ lo ∨ lo + k ≤ a) : AgreeOn lo k m (store a v m) := by
  intro x hlo hhi
  have hn : ¬ (a ≤ x ∧ x < a + n) := by omega
  rw [store, dif_neg hn]

theorem agreeOn_storeAll {lo k : ℕ} (as : List ℕ) (v : Bytes n) (m : ByteMemory)
    (h : ∀ a ∈ as, a + n ≤ lo ∨ lo + k ≤ a) : AgreeOn lo k m (storeAll as v m) := by
  induction as generalizing m with
  | nil => exact fun _ _ _ => rfl
  | cons a as ih =>
    exact (agreeOn_store v m (h a List.mem_cons_self)).trans
      (ih _ (fun x hx => h x (List.mem_cons_of_mem a hx)))

theorem agreeOn_fill {lo k length : ℕ} (byte : UInt8) (m : ByteMemory)
    (h : a + length ≤ lo ∨ lo + k ≤ a) : AgreeOn lo k m (fill a byte length m) := by
  intro x hlo hhi
  have hn : ¬ (a ≤ x ∧ x < a + length) := by omega
  rw [fill, if_neg hn]

end ByteMemory
