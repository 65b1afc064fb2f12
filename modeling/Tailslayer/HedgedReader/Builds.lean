import Tailslayer.HedgedReader.Replication

/-! The same run with assertions compiled in and compiled out. The call that sets up the memory
stands inside an assertion, so a build with `NDEBUG` never makes it. -/
namespace Tailslayer.HedgedReader

variable {cfg : Config} {os : Option ℕ} {mem m : ByteMemory} {locked : Bool}
  {vals : List (Bytes cfg.sizeofT.toNat)} {r : HedgedReader cfg}

/-- A program that constructs a reader and fills it. -/
def constructAndInsert (build : Build) (cfg : Config) (os : Option ℕ) (mem : ByteMemory)
    (locked : Bool) (vals : List (Bytes cfg.sizeofT.toNat)) :
    Except Fault (HedgedReader cfg × ByteMemory) := do
  let (r, mem) ← construct build cfg os mem
  r.insertAll build locked mem vals

/-- The run passes every assertion of the constructor and of the inserts. -/
def AssertionsHold (cfg : Config) (os : Option ℕ) (mem : ByteMemory) (locked : Bool)
    (vals : List (Bytes cfg.sizeofT.toNat)) : Prop :=
  ∃ s, constructAndInsert .debug cfg os mem locked vals = .ok s

/-- What the run reaches with assertions it also reaches without them, on a page of its own. -/
def ObserversOnly (cfg : Config) (os : Option ℕ) (mem : ByteMemory) (locked : Bool)
    (vals : List (Bytes cfg.sizeofT.toNat)) : Prop :=
  ∀ r m, constructAndInsert .debug cfg os mem locked vals = .ok (r, m) →
    constructAndInsert .release cfg os mem locked vals = .ok (r, m) ∧ r.replicaPage ≠ 0

/-- The reader that a build without assertions constructs. -/
def unsetReader (g : Geometry) (cores : Vector Int32 cfg.N.toNat) : HedgedReader cfg := { g with
  replicaPage := 0
  logicalIndex := 0
  replicas := Vector.replicate _ 0
  cores := cores }

theorem check_release (p : Prop) [Decidable p] (text : String) : check .release p text = .ok () :=
  rfl

theorem construct_release {g : Geometry} {cores : Vector Int32 cfg.N.toNat}
    (hg : cfg.geometry = .ok g) (hc : cfg.setupReplicaCores = .ok cores) :
    construct .release cfg os mem = .ok (unsetReader g cores, mem) := by
  simp only [construct, check_release, hg, hc]
  rfl

theorem N_pos_of_cores {cores : Vector Int32 cfg.N.toNat}
    (hc : cfg.setupReplicaCores = .ok cores) : 0 < cfg.N.toNat := by
  by_cases hN : cfg.N = 0
  · simp [Config.setupReplicaCores, hN] at hc
  · exact Nat.pos_of_ne_zero (fun h => hN (UInt64.toNat_inj.mp h))

/-- Every replica pointer of the unset reader is null, so the first store faults. -/
theorem insert_unsetReader (g : Geometry) (cores : Vector Int32 cfg.N.toNat)
    (hN : 0 < cfg.N.toNat) (val : Bytes cfg.sizeofT.toNat) :
    (unsetReader g cores).insert .release locked mem val = .error .nullDereference := by
  have hnull : ∃ i ∈ List.finRange cfg.N.toNat, (unsetReader g cores).replicas[i] = 0 := by
    refine ⟨⟨0, hN⟩, List.mem_finRange _, ?_⟩
    simp [unsetReader]
  have hstore : (unsetReader g cores).storeReplicas val mem = .error .nullDereference := by
    rw [storeReplicas, Except.foldlM_guarded, if_pos hnull]
  simp only [insert, check_release, hstore]
  rfl

/-- The run of a release build, where the run of a debug build passes all its assertions. -/
theorem constructAndInsert_release (h : AssertionsHold cfg os mem locked vals) :
    ∃ g cores, constructAndInsert .release cfg os mem locked vals =
      if vals = [] then .ok (unsetReader g cores, mem) else .error .nullDereference := by
  obtain ⟨s, hs⟩ := h
  obtain ⟨⟨r₀, m₀⟩, hcon, hins⟩ := Except.bind_eq_ok_iff.mp hs
  obtain ⟨_, g, cores, page, hg, hc, _, _⟩ := construct_eq_ok_iff.mp hcon
  refine ⟨g, cores, ?_⟩
  simp only [constructAndInsert, construct_release hg hc]
  cases vals with
  | nil => rfl
  | cons val vals =>
    change (unsetReader g cores).insertAll .release locked mem (val :: vals) = _
    simp only [insertAll, List.foldlM_cons, insert_unsetReader g cores (N_pos_of_cores hc)]
    rfl

theorem replicaPage_release (h : AssertionsHold cfg os mem locked vals)
    (hr : constructAndInsert .release cfg os mem locked vals = .ok (r, m)) :
    r.replicaPage = 0 := by
  obtain ⟨g, cores, he⟩ := constructAndInsert_release h
  rw [he] at hr
  split at hr
  · cases hr
    rfl
  · cases hr

/-- No run that passes its assertions is the same run without them. -/
theorem not_observersOnly (h : AssertionsHold cfg os mem locked vals) :
    ¬ ObserversOnly cfg os mem locked vals := by
  intro ho
  have ha := h
  obtain ⟨⟨r, m⟩, hs⟩ := h
  obtain ⟨hrel, hpage⟩ := ho r m hs
  exact hpage (replicaPage_release ha hrel)

/-- The memory is at address 4096 and zero; one byte is inserted. -/
theorem assertionsHold_threeElementChunks :
    AssertionsHold threeElementChunks (some 4096) (fun _ => 0) true [fun _ => 7] := by
  obtain ⟨g, hg⟩ := geometry_of_pos (by decide) checksHold_threeElementChunks
    (by unfold Config.NoOverflow; decide) (by decide)
  have hcores : ∃ cores, threeElementChunks.setupReplicaCores = .ok cores :=
    setupReplicaCores_ok (by decide)
  obtain ⟨cores, hcores⟩ := hcores
  have hroom : 0 + 1 < g.capacity.toNat := by
    rw [(describes_of_geometry (by decide) hg).capacity]
    decide
  obtain ⟨s, hs⟩ := insertAll_of_lt (filled_setUpReader hg cores 4096) (by decide)
    [fun _ => (7 : UInt8)] hroom (ByteMemory.fill 4096 0x42 kHUGEPAGE_SIZE.toNat (fun _ => 0))
  exact ⟨s, Except.bind_eq_ok_iff.mpr ⟨_, construct_eq_ok_iff.mpr
    ⟨checksHold_threeElementChunks, g, cores, 4096, hg, hcores, rfl, rfl⟩, hs⟩⟩

theorem not_observersOnly_threeElementChunks :
    ¬ ObserversOnly threeElementChunks (some 4096) (fun _ => 0) true [fun _ => 7] :=
  not_observersOnly assertionsHold_threeElementChunks

theorem not_assertions_observersOnly : ¬ ∀ cfg os mem locked vals,
    AssertionsHold cfg os mem locked vals → ObserversOnly cfg os mem locked vals := by
  intro h
  have ha := assertionsHold_threeElementChunks
  obtain ⟨⟨r, m⟩, hs⟩ := assertionsHold_threeElementChunks
  obtain ⟨hrel, hpage⟩ := h _ _ _ _ _ ha r m hs
  exact hpage (replicaPage_release ha hrel)

end Tailslayer.HedgedReader
