import Mathlib.Data.Nat.Digits.Lemmas
import Tailslayer.Foundations.WordBits
import Tailslayer.Memory.Specification

/-! `VirtToPhys` on Linux: physical addresses from the entries of `/proc/self/pagemap`
(`utilities.hpp`). -/
namespace Tailslayer.Linux

open Memory (UINT64_MAX)

/-- `/proc/self/pagemap`: whether it can be opened, and the bytes that a read of eight bytes gets at
an offset. -/
structure Pagemap where
  opens : Bool
  pread : UInt64 → List UInt8

/-- The bytes of a `uint64_t`, the lowest first. -/
def entryOf (bytes : List UInt8) : UInt64 := UInt64.ofNat (Nat.ofDigits 256 (bytes.map UInt8.toNat))

def virtToPhys (file : Pagemap) (vaddr : UInt64) : UInt64 :=
  if file.opens = false then UINT64_MAX
  else
    let bytes := file.pread (vaddr / 4096 * 8)
    if bytes.length ≠ 8 then UINT64_MAX
    else
      let entry := entryOf bytes
      if entry &&& (1 : UInt64) <<< 63 = 0 then UINT64_MAX
      else
        let pfn := entry &&& ((1 : UInt64) <<< 55 - 1)
        pfn * 4096 ||| (vaddr &&& 0xFFF)

/-! The file, as the kernel writes it. -/

/-- What an entry says of a frame; to a process without privileges, zero. -/
def shown (visible : Bool) (frame : ℕ) : ℕ := if visible then frame else 0

/-- An entry of a page that is present has bit 63 set, and the frame in its low 55 bits; an entry of
any other page has bit 63 clear. -/
def Describes (visible : Bool) (entry : ℕ) : Option ℕ → Prop
  | none => entry.testBit 63 = false
  | some frame => entry.testBit 63 = true ∧ entry % 2 ^ 55 = shown visible frame

/-- There is an entry for every page that is present; beyond the last one, reads are short. -/
structure Serves (file : Pagemap) (frames : ℕ → Option ℕ) (visible : Bool) : Prop where
  opens : file.opens = true
  entry : ∀ page < 2 ^ 52,
    (∃ entry < 2 ^ 64, Describes visible entry (frames page) ∧
      file.pread (UInt64.ofNat (8 * page)) = (Nat.digitsAppend 256 8 entry).map UInt8.ofNat) ∨
    frames page = none ∧ (file.pread (UInt64.ofNat (8 * page))).length ≠ 8
  fits : ∀ page frame, frames page = some frame → frame < 2 ^ 52

variable {file : Pagemap} {frames : ℕ → Option ℕ} {visible : Bool} {vaddr : UInt64} {entry : ℕ}

theorem entryOf_digits (entry : ℕ) :
    entryOf ((Nat.digitsAppend 256 8 entry).map UInt8.ofNat) = UInt64.ofNat entry := by
  have hbytes : ((Nat.digitsAppend 256 8 entry).map UInt8.ofNat).map UInt8.toNat =
      Nat.digitsAppend 256 8 entry := by
    rw [List.map_map]
    refine (List.map_congr_left ?_).trans (List.map_id _)
    intro digit hdigit
    have hlt : digit < 256 := Nat.lt_of_mem_digitsAppend (by decide) 8 digit hdigit
    exact UInt8.toNat_ofNat_of_lt hlt
  rw [entryOf, hbytes, Nat.digitsAppend, Nat.ofDigits_append_replicate_zero, Nat.ofDigits_digits]

theorem toNat_page (vaddr : UInt64) :
    vaddr / 4096 * 8 = UInt64.ofNat (8 * (vaddr.toNat / 4096)) := by
  have hlt := vaddr.toNat_lt
  apply UInt64.toNat_inj.mp
  rw [UInt64.toNat_mul, UInt64.toNat_div, UInt64.toNat_ofNat']
  change vaddr.toNat / 4096 * 8 % 2 ^ 64 = _
  rw [Nat.mul_comm]

theorem present_iff (h : entry < 2 ^ 64) :
    UInt64.ofNat entry &&& (1 : UInt64) <<< 63 = 0 ↔ entry.testBit 63 = false := by
  rw [← UInt64.toNat_inj, UInt64.toNat_and, UInt64.toNat_ofNat', Nat.mod_eq_of_lt h]
  change entry &&& 2 ^ 63 = 0 ↔ _
  rw [Nat.and_two_pow]
  cases entry.testBit 63 <;> simp

theorem toNat_pfn (h : entry < 2 ^ 64) :
    (UInt64.ofNat entry &&& ((1 : UInt64) <<< 55 - 1)).toNat = entry % 2 ^ 55 := by
  rw [UInt64.toNat_and, UInt64.toNat_ofNat', Nat.mod_eq_of_lt h]
  change entry &&& (2 ^ 55 - 1) = _
  exact Nat.and_two_pow_sub_one_eq_mod entry 55

/-- The number of the frame and the offset in the page do not overlap. -/
theorem toNat_physical {pfn : UInt64} (hpfn : pfn.toNat < 2 ^ 52) (vaddr : UInt64) :
    (pfn * 4096 ||| (vaddr &&& 0xFFF)).toNat = pfn.toNat * 4096 + vaddr.toNat % 4096 := by
  have hlow : vaddr.toNat % 4096 < 2 ^ 12 := Nat.mod_lt _ (by decide)
  have hmask : (vaddr &&& 0xFFF).toNat = vaddr.toNat % 4096 := by
    rw [UInt64.toNat_and]
    exact Nat.and_two_pow_sub_one_eq_mod vaddr.toNat 12
  have hproduct : (pfn * 4096).toNat = 2 ^ 12 * pfn.toNat := by
    rw [UInt64.toNat_mul]
    change pfn.toNat * 4096 % 2 ^ 64 = _
    omega
  rw [UInt64.toNat_or, hproduct, hmask, ← Nat.two_pow_add_eq_or_of_lt hlow]
  omega

theorem shown_lt (h : Serves file frames visible) {page frame : ℕ}
    (hframe : frames page = some frame) : shown visible frame < 2 ^ 52 := by
  have hlt := h.fits page frame hframe
  cases visible with
  | false => exact Nat.two_pow_pos 52
  | true => exact hlt

/-- Over every page table: the address of a page that is present is that in its frame, or in frame
zero for a process without privileges; and that of any other page is `UINT64_MAX`. -/
theorem virtToPhys_eq (h : Serves file frames visible) (vaddr : UInt64) :
    virtToPhys file vaddr =
      match frames (vaddr.toNat / 4096) with
      | none => UINT64_MAX
      | some frame => UInt64.ofNat (shown visible frame * 4096 + vaddr.toNat % 4096) := by
  have hlt := vaddr.toNat_lt
  rcases h.entry (vaddr.toNat / 4096) (by omega) with
    ⟨entry, hentry, hdescribes, hpread⟩ | ⟨hnone, hshort⟩
  swap
  · rw [virtToPhys, if_neg (by simp [h.opens]), toNat_page, hnone]
    exact if_pos hshort
  have hlen : ((Nat.digitsAppend 256 8 entry).map UInt8.ofNat).length = 8 := by
    rw [List.length_map]
    exact Nat.length_digitsAppend (by decide) 8 (by simpa using hentry)
  rw [virtToPhys, if_neg (by simp [h.opens]), toNat_page, hpread]
  simp only [hlen, ne_eq, not_true_eq_false, if_false, entryOf_digits, present_iff hentry]
  cases hframe : frames (vaddr.toNat / 4096) with
  | none =>
    rw [hframe] at hdescribes
    exact if_pos hdescribes
  | some frame =>
    rw [hframe] at hdescribes
    obtain ⟨hpresent, hlow⟩ := hdescribes
    rw [if_neg (by simp [hpresent])]
    have hshown := shown_lt h hframe
    have hpfn := toNat_pfn hentry
    rw [hlow] at hpfn
    apply UInt64.toNat_inj.mp
    have hfit : shown visible frame * 4096 + vaddr.toNat % 4096 < 2 ^ 64 := by omega
    rw [toNat_physical (by rw [hpfn]; exact hshown), hpfn, UInt64.toNat_ofNat',
      Nat.mod_eq_of_lt hfit]

end Tailslayer.Linux
