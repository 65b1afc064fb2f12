import Mathlib.Algebra.BigOperators.Group.List.Basic
import Mathlib.Data.Finset.Card
import Mathlib.Data.List.Pairwise
import Tailslayer.Topology.Specification

/-! Records that list each processor once: their first keys, their positions, their processors. -/
namespace Tailslayer

open WordBits

instance : Std.Symm GroupAffinity.Apart where
  symm := by
    rintro e e' h ⟨hg, hm⟩
    exact h ⟨hg.symm, by rwa [UInt64.and_comm]⟩

instance : DecidableRel GroupAffinity.Apart :=
  fun e e' => inferInstanceAs (Decidable (¬ (e.group = e'.group ∧ e.mask &&& e'.mask ≠ 0)))

/-- The single-bit masks of an entry's processors. -/
def GroupAffinity.processors (e : GroupAffinity) : List GroupAffinity :=
  (bits e.mask).map (fun b => ⟨bit b, e.group⟩)

namespace GroupAffinity

variable {e e' mask : GroupAffinity}

theorem mem_processors :
    mask ∈ e.processors ↔ ∃ b, e.mask.toNat.testBit b ∧ mask = ⟨bit b, e.group⟩ := by
  simp only [processors, List.mem_map, mem_bits]
  constructor
  · rintro ⟨b, hb, rfl⟩
    exact ⟨b, hb, rfl⟩
  · rintro ⟨b, hb, rfl⟩
    exact ⟨b, hb, rfl⟩

theorem nodup_processors (e : GroupAffinity) : e.processors.Nodup := by
  apply List.Nodup.map_on _ (nodup_bits e.mask)
  intro i hi j hj he
  exact bit_inj (lt_of_mem_bits hi) (lt_of_mem_bits hj) (congrArg GroupAffinity.mask he)

theorem not_apart {group : UInt16} {b : ℕ} (hg : e.group = group) (hb : e.mask.toNat.testBit b)
    (hg' : e'.group = group) (hb' : e'.mask.toNat.testBit b) : ¬ Apart e e' := by
  intro h
  exact h ⟨hg.trans hg'.symm, and_ne_zero_iff.mpr ⟨b, hb, hb'⟩⟩

theorem Apart.disjoint (h : Apart e e') : List.Disjoint e.processors e'.processors := by
  intro mask hm hm'
  obtain ⟨b, hb, rfl⟩ := mem_processors.mp hm
  obtain ⟨b', hb', he⟩ := mem_processors.mp hm'
  obtain ⟨hbit, hgroup⟩ := GroupAffinity.mk.inj he
  have heq := bit_inj (lt_of_testBit hb) (lt_of_testBit hb') hbit
  subst b'
  exact not_apart hgroup hb rfl hb' h

end GroupAffinity

namespace NativeRecord

variable {r r' : NativeRecord} {rs : List NativeRecord} {group : UInt16} {b : ℕ}
  {mask : GroupAffinity} {p : LogicalProcessor GroupAffinity}

theorem mem_entries {e : GroupAffinity} :
    e ∈ r.entries ↔ ∃ g, g < r.groupCount.toNat ∧ r.groupMask g = e := by
  simp [entries]

/-- Some group of the record overlaps the mask: the test of the package pass. -/
def Covers (r : NativeRecord) (mask : GroupAffinity) : Prop :=
  ∃ g ∈ List.range r.groupCount.toNat, (r.key g).Overlaps mask

instance (r : NativeRecord) (mask : GroupAffinity) : Decidable (r.Covers mask) :=
  inferInstanceAs (Decidable (∃ g ∈ _, _))

theorem covers_bit (hb : b < 64) : r.Covers ⟨bit b, group⟩ ↔ r.Lists group b := by
  constructor
  · rintro ⟨g, hg, hgroup, hm⟩
    exact ⟨r.groupMask g, mem_entries.mpr ⟨g, List.mem_range.mp hg, rfl⟩, hgroup,
      (and_bit_ne_zero hb).mp hm⟩
  · rintro ⟨e, he, hgroup, hm⟩
    obtain ⟨g, hg, rfl⟩ := mem_entries.mp he
    exact ⟨g, List.mem_range.mpr hg, hgroup, (and_bit_ne_zero hb).mpr hm⟩

/-- The record lists the processor that an entry of a topology stands for. -/
def Contains (r : NativeRecord) (p : LogicalProcessor GroupAffinity) : Prop :=
  ∃ group b, r.Lists group b ∧ p.affinityMask = ⟨bit b, group⟩

theorem Lists.lt (h : r.Lists group b) : b < 64 := by
  obtain ⟨e, -, -, hb⟩ := h
  exact lt_of_testBit hb

theorem Contains.mono (hsub : ∀ group b, r.Lists group b → r'.Lists group b)
    (h : r.Contains p) : r'.Contains p := by
  obtain ⟨group, b, hl, he⟩ := h
  exact ⟨group, b, hsub group b hl, he⟩

theorem covers_of_contains (h : r.Contains p) : r.Covers p.affinityMask := by
  obtain ⟨group, b, hl, hp⟩ := h
  rw [hp]
  exact (covers_bit hl.lt).mpr hl

/-- A record whose masks lie inside another's lists only processors of the other. -/
theorem Lists.of_included (h : ∀ e ∈ r.entries, ∃ e' ∈ r'.entries,
    e'.group = e.group ∧ e.mask &&& e'.mask = e.mask) (hl : r.Lists group b) :
    r'.Lists group b := by
  obtain ⟨e, he, hg, hb⟩ := hl
  obtain ⟨e', he', hgroup, hmask⟩ := h e he
  refine ⟨e', he', hgroup.trans hg, ?_⟩
  rw [← hmask, UInt64.toNat_and, Nat.testBit_and, Bool.and_eq_true] at hb
  exact hb.2

/-- The position of a record, told by its first entry as the parser does. -/
def index (rs : List NativeRecord) (r : NativeRecord) : ℕ :=
  (rs.map (NativeRecord.key · 0)).idxOf (r.key 0)

theorem mem_processors : mask ∈ (rs.flatMap entries).flatMap GroupAffinity.processors ↔
    ∃ r ∈ rs, ∃ group b, r.Lists group b ∧ mask = ⟨bit b, group⟩ := by
  simp only [List.mem_flatMap, GroupAffinity.mem_processors]
  constructor
  · rintro ⟨e, ⟨r, hr, he⟩, b, hb, rfl⟩
    exact ⟨r, hr, e.group, b, ⟨e, he, rfl, hb⟩, rfl⟩
  · rintro ⟨r, hr, group, b, ⟨e, he, rfl, hb⟩, rfl⟩
    exact ⟨e, ⟨r, hr, he⟩, b, hb, rfl⟩

theorem index_lt (hr : r ∈ rs) : index rs r < rs.length := by
  have hk : r.key 0 ∈ rs.map (NativeRecord.key · 0) := List.mem_map_of_mem hr
  simpa [index] using List.idxOf_lt_length_iff.mpr hk

namespace Partition

theorem first_mem (h : Partition rs) (hr : r ∈ rs) : r.groupMask 0 ∈ r.entries := by
  have hne := h.nonempty r hr
  have hc : r.groupCount.toNat ≠ 0 := by
    intro hc
    exact hne (by simp [entries, hc])
  exact mem_entries.mpr ⟨0, by omega, rfl⟩

theorem apart_of_ne (h : Partition rs) (hr : r ∈ rs) (hr' : r' ∈ rs) (hne : r ≠ r') :
    ∀ e ∈ r.entries, ∀ e' ∈ r'.entries, GroupAffinity.Apart e e' := by
  have hp := (List.pairwise_flatMap.mp h.apart).2
  have hsymm : Std.Symm (fun r r' : NativeRecord =>
      ∀ e ∈ r.entries, ∀ e' ∈ r'.entries, GroupAffinity.Apart e e') :=
    ⟨fun r r' hrel e he e' he' => symm (hrel e' he' e he)⟩
  exact hp.forall hr hr' hne

/-- No processor is listed by two records. -/
theorem unique (h : Partition rs) (hr : r ∈ rs) (hr' : r' ∈ rs) (hl : r.Lists group b)
    (hl' : r'.Lists group b) : r = r' := by
  by_contra hne
  obtain ⟨e, he, hg, hb⟩ := hl
  obtain ⟨e', he', hg', hb'⟩ := hl'
  exact GroupAffinity.not_apart hg hb hg' hb' (h.apart_of_ne hr hr' hne e he e' he')

theorem contains_unique (h : Partition rs) (hr : r ∈ rs) (hr' : r' ∈ rs)
    (hp : r.Contains p) (hp' : r'.Contains p) : r = r' := by
  obtain ⟨group, b, hl, he⟩ := hp
  obtain ⟨group', b', hl', he'⟩ := hp'
  obtain ⟨hbit, rfl⟩ := GroupAffinity.mk.inj (he.symm.trans he')
  obtain rfl := bit_inj hl.lt hl'.lt hbit
  exact h.unique hr hr' hl hl'

theorem contains_of_covers (h : Partition rs) (hr : r ∈ rs) (hr' : r' ∈ rs)
    (hp : r.Contains p) (hc : r'.Covers p.affinityMask) : r' = r := by
  obtain ⟨group, b, hl, he⟩ := hp
  rw [he, covers_bit hl.lt] at hc
  exact h.unique hr' hr hc hl

/-- The first entries tell the records apart, so each record gets an id of its own. -/
theorem nodup_keys (h : Partition rs) : (rs.map (NativeRecord.key · 0)).Nodup := by
  have hp := (List.pairwise_flatMap.mp h.apart).2
  apply List.pairwise_map.mpr
  apply hp.imp_of_mem
  intro r r' hr hr' hrel he
  have hapart := hrel _ (h.first_mem hr) _ (h.first_mem hr')
  obtain ⟨hgroup, hmask⟩ := GroupPair.mk.inj he
  have hz := h.nonzero r hr _ (h.first_mem hr)
  apply hapart
  refine ⟨hgroup, ?_⟩
  rw [← hmask]
  simpa using hz

theorem index_inj (h : Partition rs) (hr : r ∈ rs) (hr' : r' ∈ rs)
    (he : index rs r = index rs r') : r = r' := by
  have hk : r.key 0 ∈ rs.map (NativeRecord.key · 0) := List.mem_map_of_mem hr
  exact List.inj_on_of_nodup_map h.nodup_keys hr hr' ((List.idxOf_inj hk).mp he)

theorem index_getElem (h : Partition rs) {i : ℕ} (hi : i < rs.length) :
    index rs rs[i] = i := by
  have hk := List.Nodup.idxOf_getElem h.nodup_keys i (by simpa using hi)
  simpa [index] using hk

/-- The listed processors, in the order of the records, are pairwise different. -/
theorem nodup_processors (h : Partition rs) :
    ((rs.flatMap entries).flatMap GroupAffinity.processors).Nodup := by
  apply List.nodup_flatMap.mpr
  refine ⟨fun e _ => e.nodup_processors, ?_⟩
  exact h.apart.imp (fun ha => ha.disjoint)

/-- There are at most 64 processors in each of the 65536 groups. -/
theorem length_processors_le (h : Partition rs) :
    ((rs.flatMap entries).flatMap GroupAffinity.processors).length ≤ 2 ^ 22 := by
  have hsub : ((rs.flatMap entries).flatMap GroupAffinity.processors).toFinset ⊆
      (Finset.range (2 ^ 22)).image
        (fun x => (⟨bit (x % 64), UInt16.ofNat (x / 64)⟩ : GroupAffinity)) := by
    intro mask hm
    rw [List.mem_toFinset, mem_processors] at hm
    obtain ⟨r, -, group, b, hl, rfl⟩ := hm
    have hb := hl.lt
    have hg := group.toNat_lt
    have hmod : (group.toNat * 64 + b) % 64 = b := by omega
    have hdiv : (group.toNat * 64 + b) / 64 = group.toNat := by omega
    refine Finset.mem_image.mpr ⟨group.toNat * 64 + b, ?_, ?_⟩
    · exact Finset.mem_range.mpr (by omega)
    · simp [hmod, hdiv]
  have hcard := (Finset.card_le_card hsub).trans Finset.card_image_le
  rwa [List.toFinset_card_of_nodup h.nodup_processors, Finset.card_range] at hcard

theorem exists_lists (h : Partition rs) (hr : r ∈ rs) : ∃ group b, r.Lists group b := by
  obtain ⟨b, hb⟩ := exists_mem_bits (h.nonzero r hr _ (h.first_mem hr))
  exact ⟨_, b, _, h.first_mem hr, rfl, mem_bits.mp hb⟩

theorem one_le_processors (h : Partition rs) (hr : r ∈ rs) :
    1 ≤ (r.entries.flatMap GroupAffinity.processors).length := by
  obtain ⟨group, b, e, he, rfl, hb⟩ := h.exists_lists hr
  have hm : (⟨bit b, e.group⟩ : GroupAffinity) ∈ r.entries.flatMap GroupAffinity.processors :=
    List.mem_flatMap.mpr ⟨e, he, GroupAffinity.mem_processors.mpr ⟨b, hb, rfl⟩⟩
  exact List.length_pos_of_mem hm

theorem length_le (h : Partition rs) : rs.length ≤ 2 ^ 22 := by
  have hsum := List.length_le_sum_of_one_le
    (rs.map (fun r => (r.entries.flatMap GroupAffinity.processors).length)) (by
      intro i hi
      obtain ⟨r, hr, rfl⟩ := List.mem_map.mp hi
      exact h.one_le_processors hr)
  have hle := h.length_processors_le
  rw [List.flatMap_assoc, List.length_flatMap] at hle
  rw [List.length_map] at hsum
  omega

end Partition

/-- Records are well formed when each core's masks lie inside those of a package. -/
theorem WellFormed.of_included {records : List NativeRecord}
    (hcores : Partition (NativeRecord.cores records))
    (hpackages : Partition (NativeRecord.packages records))
    (hsub : ∀ r ∈ NativeRecord.cores records, ∃ k ∈ NativeRecord.packages records,
      ∀ e ∈ r.entries, ∃ e' ∈ k.entries, e'.group = e.group ∧ e.mask &&& e'.mask = e.mask)
    (hcount : (NativeRecord.packages records).length < 65535) : WellFormed records := by
  refine ⟨hcores, hpackages, ?_, hcount⟩
  intro r hr
  obtain ⟨k, hk, hincluded⟩ := hsub r hr
  exact ⟨k, hk, fun group b hl => hl.of_included hincluded⟩

end NativeRecord

end Tailslayer
