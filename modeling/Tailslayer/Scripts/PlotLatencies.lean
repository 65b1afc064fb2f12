import Mathlib.Algebra.Order.Field.Rat
import Mathlib.Data.List.MinMax
import Mathlib.Data.List.Sort
import Mathlib.Tactic.Linarith
import Mathlib.Tactic.Ring
import Tailslayer.Foundations.Outcome
import Tailslayer.Foundations.Ranks

/-! `plot_latencies.py`: the survival function of a file of latencies. -/
namespace Tailslayer.PlotLatencies

open Ranks

/-- What ends the processing of a file. -/
inductive Fault
  | fileNotFound
  | emptyData
  | notANumber
  | noValues
  deriving DecidableEq, Repr

/-- A number as `pd.read_csv` reads it, without a sign. -/
def parseNumber (field : String) : Except Fault ℕ :=
  if field.toList ≠ [] ∧ field.toList.all Char.isDigit then
    .ok (Nat.ofDigitChars 10 field.toList 0)
  else .error .notANumber

/-- `pd.read_csv(path, header=0)` and `iloc[:, 0]`, for a file with one column: the first line is
the header, blank lines are skipped. -/
def readColumn (lines : List String) : Except Fault (List ℕ) :=
  match lines.filter (· ≠ "") with
  | [] => .error .emptyData
  | _ :: rows => rows.mapM parseNumber

/-- `1.0 - np.arange(1, n + 1) / n`, in exact arithmetic. -/
def survivalPoints (n : ℕ) : List ℚ := (List.range n).map fun i : ℕ => 1 - ((i : ℚ) + 1) / n

/-- `np.clip(p, a_min=np.min(p), a_max=np.max(p))` -/
def clip (p : List ℚ) : List ℚ :=
  p.map fun x => min (max x (p.foldr min x)) (p.foldr max x)

/-- `np.sort` -/
def sort (data : List ℕ) : List ℕ := data.mergeSort fun x y => decide (x ≤ y)

/-- The line that `plot_csv_benchmarks` draws for a file. -/
def plotFile (file : Option (List String)) : Except Fault (List (ℕ × ℚ)) :=
  match file with
  | none => .error .fileNotFound
  | some lines => do
    let sortedLatencies := sort (← readColumn lines)
    let n := sortedLatencies.length
    if n = 0 then .error .noValues
    else return sortedLatencies.zip (clip (survivalPoints n))

/-- The share of the data above a value. -/
def above (data : List ℕ) (x : ℕ) : ℚ := (data.countP (x < ·) : ℚ) / data.length

/-- The line goes through the data from the left to the right, downwards; over each value its lowest
point is the share of the data above the value. -/
structure IsSurvival (data : List ℕ) (curve : List (ℕ × ℚ)) : Prop where
  length : curve.length = data.length
  drawn : ∀ q ∈ curve, q.1 ∈ data ∧ above data q.1 ≤ q.2
  attained : ∀ x ∈ data, (x, above data x) ∈ curve
  descends : curve.Pairwise fun q r => q.1 ≤ r.1 ∧ r.2 < q.2

variable {data : List ℕ} {n i x : ℕ}

/-- The bounds are bounds of the points themselves. -/
theorem clip_eq (p : List ℚ) : clip p = p := by
  have hlow : ∀ (l : List ℚ) (x : ℚ), l.foldr min x ≤ x := by
    intro l x
    induction l with
    | nil => exact le_rfl
    | cons y l ih => exact (min_le_right _ _).trans ih
  have hhigh : ∀ (l : List ℚ) (x : ℚ), x ≤ l.foldr max x := by
    intro l x
    induction l with
    | nil => exact le_rfl
    | cons y l ih => exact ih.trans (le_max_right _ _)
  rw [clip, List.map_congr_left (g := id), List.map_id]
  intro x _
  rw [max_eq_left (hlow p x), min_eq_left (hhigh p x)]
  rfl

theorem sort_perm (data : List ℕ) : (sort data).Perm data := List.mergeSort_perm _ _

theorem pairwise_sort (data : List ℕ) : (sort data).Pairwise (· ≤ ·) := by
  have h : (sort data).Pairwise (fun x y => decide (x ≤ y) = true) := by
    apply List.pairwise_mergeSort
    · intro x y z hxy hyz
      simp only [decide_eq_true_eq] at hxy hyz ⊢
      exact hxy.trans hyz
    · intro x y
      simpa using Nat.le_total x y
  exact h.imp fun hxy => of_decide_eq_true hxy

theorem above_eq (data : List ℕ) (hne : data ≠ []) (x : ℕ) :
    above data x = 1 - (data.countP (· ≤ x) : ℚ) / data.length := by
  have hpos : (data.length : ℚ) ≠ 0 := by
    rw [Ne, Nat.cast_eq_zero, List.length_eq_zero_iff]
    exact hne
  have hsplit : data.countP (· ≤ x) + data.countP (x < ·) = data.length := by
    have hlength := List.length_eq_countP_add_countP (fun y => decide (y ≤ x)) (l := data)
    have hnot : data.countP (fun y => ¬ decide (y ≤ x) = true) = data.countP (x < ·) := by
      apply List.countP_congr
      intro y _
      simp
    omega
  have hcast : (data.countP (x < ·) : ℚ) = data.length - data.countP (· ≤ x) := by
    rw [← hsplit]
    push_cast
    ring
  rw [above, hcast, sub_div, div_self hpos]

/-- Over a value the line ends at the last entry that equals it. -/
theorem getElem_countP {xs : List ℕ} (h : xs.Pairwise (· ≤ ·)) (hx : x ∈ xs) :
    ∃ i, ∃ hi : i < xs.length, xs[i] = x ∧ i + 1 = xs.countP (· ≤ x) := by
  obtain ⟨j, hj, rfl⟩ := List.getElem_of_mem hx
  have hbelow := lt_countP_of_getElem_le h hj le_rfl
  have hle : xs.countP (· ≤ xs[j]) ≤ xs.length := List.countP_le_length
  refine ⟨xs.countP (· ≤ xs[j]) - 1, by omega, ?_, by omega⟩
  apply Nat.le_antisymm
  · by_contra hlt
    have habove := countP_le_of_lt_getElem h (by omega) (Nat.lt_of_not_le hlt)
    omega
  · rcases Nat.lt_or_eq_of_le (Nat.le_pred_of_lt hbelow) with hlt | heq
    · exact List.pairwise_iff_getElem.mp h _ _ hj _ hlt
    · exact (getElem_congr_idx heq).le

theorem isSurvival_sort (hne : data ≠ []) :
    IsSurvival data ((sort data).zip (survivalPoints (sort data).length)) := by
  have hperm := sort_perm data
  have hsorted := pairwise_sort data
  have hlen : (sort data).length = data.length := hperm.length_eq
  have hpos : (0 : ℚ) < data.length := by exact_mod_cast List.length_pos_iff.mpr hne
  have hpoint : ∀ i (hi : i < ((sort data).zip (survivalPoints (sort data).length)).length)
      (hi' : i < (sort data).length), ((sort data).zip (survivalPoints (sort data).length))[i] =
        ((sort data)[i], 1 - ((i : ℚ) + 1) / data.length) := by
    intro i hi hi'
    simp [survivalPoints, hlen]
  have hcurve : ((sort data).zip (survivalPoints (sort data).length)).length =
      (sort data).length := by simp [survivalPoints]
  refine ⟨hcurve.trans hlen, ?_, ?_, ?_⟩
  · intro q hq
    obtain ⟨i, hi, rfl⟩ := List.getElem_of_mem hq
    have hi' : i < (sort data).length := hcurve ▸ hi
    rw [hpoint i hi hi']
    have hbelow := lt_countP_of_getElem_le hsorted hi' le_rfl
    rw [hperm.countP_eq] at hbelow
    have hcast : ((i : ℚ) + 1) ≤ data.countP (· ≤ (sort data)[i]) := by exact_mod_cast hbelow
    refine ⟨hperm.mem_iff.mp (List.getElem_mem hi'), ?_⟩
    rw [above_eq data hne]
    exact sub_le_sub_left (div_le_div_of_nonneg_right hcast hpos.le) 1
  · intro x hx
    obtain ⟨i, hi, rfl, hcount⟩ := getElem_countP hsorted (hperm.mem_iff.mpr hx)
    rw [hperm.countP_eq] at hcount
    have hmem := List.getElem_mem (hcurve.symm ▸ hi)
    rw [hpoint i _ hi] at hmem
    rw [above_eq data hne, ← hcount]
    push_cast
    exact hmem
  · rw [List.pairwise_iff_getElem]
    intro i j hi hj hij
    rw [hpoint i hi (hcurve ▸ hi), hpoint j hj (hcurve ▸ hj)]
    refine ⟨List.pairwise_iff_getElem.mp hsorted i j _ _ hij, ?_⟩
    have hcast : ((i : ℚ) + 1) < (j : ℚ) + 1 := by exact_mod_cast Nat.succ_lt_succ hij
    exact sub_lt_sub_left (div_lt_div_of_pos_right hcast hpos) 1

/-! Reading back what was printed. -/

/-- What `printf` prints for a number is read back as that number. -/
theorem parseNumber_repr (n : ℕ) : parseNumber (Nat.repr n) = .ok n := by
  have hdigits : (Nat.toDigits 10 n).all Char.isDigit = true :=
    List.all_eq_true.mpr fun c hc => Nat.isDigit_of_mem_toDigits (by decide) (by decide) hc
  rw [parseNumber, Nat.toList_repr, if_pos ⟨Nat.toDigits_ne_nil, hdigits⟩,
    Nat.ofDigitChars_toDigits (by decide) (by decide)]

theorem repr_ne_empty (n : ℕ) : Nat.repr n ≠ "" := by
  intro h
  have hlist := congrArg String.toList h
  rw [Nat.toList_repr] at hlist
  exact Nat.toDigits_ne_nil hlist

theorem readColumn_printed {header : String} (hheader : header ≠ "") (data : List ℕ) :
    readColumn (header :: data.map Nat.repr) = .ok data := by
  have hlines : (header :: data.map Nat.repr).filter (· ≠ "") = header :: data.map Nat.repr := by
    rw [List.filter_eq_self]
    intro line hline
    rcases List.mem_cons.mp hline with rfl | hline
    · exact decide_eq_true hheader
    · obtain ⟨n, -, rfl⟩ := List.mem_map.mp hline
      exact decide_eq_true (repr_ne_empty n)
  rw [readColumn, hlines]
  simp only
  rw [List.mapM_map]
  have hrows : data.mapM (parseNumber ∘ Nat.repr) = .ok (data.map id) :=
    Except.mapM_of_ok fun n _ => parseNumber_repr n
  rw [List.map_id] at hrows
  exact hrows

/-- A file of printed numbers is drawn as their survival function. -/
theorem plotFile_printed {header : String} (hheader : header ≠ "") (hne : data ≠ []) :
    ∃ curve, plotFile (some (header :: data.map Nat.repr)) = .ok curve ∧ IsSurvival data curve := by
  have hlen : (sort data).length ≠ 0 := by
    rw [(sort_perm data).length_eq]
    exact List.length_pos_iff.mpr hne |>.ne'
  refine ⟨_, ?_, isSurvival_sort hne⟩
  simp only [plotFile, readColumn_printed hheader, bind, Except.bind, if_neg hlen, clip_eq, pure,
    Except.pure]

/-- The order of the data does not matter. -/
theorem IsSurvival.of_perm {data' : List ℕ} {curve : List (ℕ × ℚ)} (h : data.Perm data')
    (hc : IsSurvival data curve) : IsSurvival data' curve := by
  have habove : ∀ x, above data' x = above data x := by
    intro x
    rw [above, above, h.countP_eq, h.length_eq]
  refine ⟨hc.length.trans h.length_eq, ?_, ?_, hc.descends⟩
  · intro q hq
    obtain ⟨hmem, hle⟩ := hc.drawn q hq
    exact ⟨h.mem_iff.mp hmem, by rw [habove]; exact hle⟩
  · intro x hx
    rw [habove]
    exact hc.attained x (h.mem_iff.mpr hx)

end Tailslayer.PlotLatencies
