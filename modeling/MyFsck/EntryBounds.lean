import MyFsck.Partition

/-! Which bytes `read_partition_entry` reads. The decoder of the model finds a byte at every index;
here it stops at an index that is not one of the sector's. -/
namespace MyFsck

open ByteBuffer

/-- `section[i]`, for an `int` index that must be one of the sector's. -/
def sectorByte (sector : Buf) (i : ℤ) : Option Byte := if 0 ≤ i then sector.load i.toNat else none

/-- The loop of `parse_bytes_to_decimal_u` with its accesses checked. -/
def parseLoopIn (sector : Buf) (start : ℤ) : ℕ → ℕ → Option ℕ
  | 0, result => some result
  | k+1, result => do
    let c ← sectorByte sector (start+k)
    parseLoopIn sector start k (u32 (result*2^8 + c.toNat))

def parseBytesToDecimalUIn (sector : Buf) (start len : ℤ) : Option ℕ :=
  parseLoopIn sector start len.toNat 0

/-- `read_partition_entry` with its accesses checked. -/
def readPartitionEntryIn (sector : Buf) (start : ℕ) (offset : ℤ) : Option PartitionEntry := do
  let type ← sectorByte sector (offset+4)
  let s ← parseBytesToDecimalUIn sector (offset+8) (offset+12)
  let length ← parseBytesToDecimalUIn sector (offset+12) (offset+16)
  pure ⟨type.toNat,u32 (start+s),length⟩

section Checked

variable {sector : Buf}

theorem sectorByte_eq {i : ℕ} (h : i < sector.size) : sectorByte sector i = some (sector.byte i) := by
  rw [sectorByte,if_pos (Int.natCast_nonneg i),Int.toNat_natCast,Buf.load_eq h]

theorem sectorByte_none {i : ℤ} (h : i < 0 ∨ (sector.size:ℤ) ≤ i) : sectorByte sector i = none := by
  unfold sectorByte
  split
  · unfold Buf.load
    rw [if_neg (by omega)]
  · rfl

theorem parseLoopIn_eq {start k : ℕ} (h : start+k ≤ sector.size) (r : ℕ) :
    parseLoopIn sector start k r = some (parseLoop sector.byte start k r) := by
  induction k generalizing r with
  | zero => rfl
  | succ k ih =>
    have hbyte : sectorByte sector ((start:ℤ)+k) = some (sector.byte (start+k)) := by
      rw [← Int.natCast_add]
      exact sectorByte_eq (by omega)
    rw [parseLoopIn,hbyte]
    exact ih (by omega) _

theorem parseLoopIn_none {start : ℤ} {k : ℕ} (hk : k ≠ 0) (h : (sector.size:ℤ) < start+k) (r : ℕ) :
    parseLoopIn sector start k r = none := by
  obtain ⟨k,rfl⟩ := Nat.exists_eq_succ_of_ne_zero hk
  rw [parseLoopIn,sectorByte_none (Or.inr (by push_cast at h; omega))]
  rfl

theorem readPartitionEntryIn_none (hs : sector.size = sectorSizeBytes) (start : ℕ) {offset : ℤ}
    (h : offset < -4 ∨ 242 < offset) : readPartitionEntryIn sector start offset = none := by
  simp only [sectorSizeBytes] at hs
  unfold readPartitionEntryIn parseBytesToDecimalUIn
  rcases h with hlow | hhigh
  · rw [sectorByte_none (Or.inl (by omega))]
    rfl
  · rw [parseLoopIn_none (k := (offset+16).toNat) (by omega) (by omega)]
    cases sectorByte sector (offset+4) with
    | none => rfl
    | some type => cases parseLoopIn sector (offset+8) (offset+12).toNat 0 <;> rfl

theorem readPartitionEntryIn_eq (hs : sector.size = sectorSizeBytes) (stack : ℕ → Byte) (start offset : ℕ) :
    readPartitionEntryIn sector start offset = if 2*offset+27 < sectorSizeBytes then
      some (readPartitionEntry (sectorMemory sector stack) start offset) else none := by
  split
  · have hbyte : ∀ i < sectorSizeBytes, sectorMemory sector stack i = sector.byte i :=
      fun i hi => if_pos hi
    have hparse : ∀ pos len : ℕ, pos+len ≤ sectorSizeBytes →
        parseBytesToDecimalUIn sector pos len =
          some (parseBytesToDecimalU (sectorMemory sector stack) pos len) := by
      intro pos len hle
      rw [parseBytesToDecimalUIn,Int.toNat_natCast,parseLoopIn_eq (hs ▸ hle),← parseBytesToDecimalU,
        parseBytesToDecimalU_eq,parseBytesToDecimalU_eq,
        num_congr fun k hk => (hbyte _ (by omega)).symm]
    unfold readPartitionEntryIn
    rw [show (offset:ℤ)+4 = ((offset+4:ℕ):ℤ) by push_cast; rfl,
      show (offset:ℤ)+8 = ((offset+8:ℕ):ℤ) by push_cast; rfl,
      show (offset:ℤ)+12 = ((offset+12:ℕ):ℤ) by push_cast; rfl,
      show (offset:ℤ)+16 = ((offset+16:ℕ):ℤ) by push_cast; rfl,sectorByte_eq (by omega),
      hparse _ _ (by omega),hparse _ _ (by omega),
      ← hbyte _ (by omega : offset+4 < sectorSizeBytes)]
    rfl
  · rename_i hout
    simp only [sectorSizeBytes] at hout
    exact readPartitionEntryIn_none hs start (Or.inr (by omega))

end Checked

/-- The entry at `offset` is decoded from bytes of the sector alone: its type, and the two little-endian
numbers behind it. -/
def DecodedInside (sector : Buf) (start : ℕ) (offset : ℤ) : Prop :=
  readPartitionEntryIn sector start offset =
    some ⟨(sector.byte (offset+4).toNat).toNat,u32 (start+num sector.byte (offset+8).toNat 4),
      num sector.byte (offset+12).toNat 4⟩

instance (sector : Buf) (start : ℕ) (offset : ℤ) : Decidable (DecodedInside sector start offset) :=
  inferInstanceAs (Decidable (_ = _))

theorem decodedInside_iff {sector : Buf} (hs : sector.size = sectorSizeBytes) (start : ℕ) (offset : ℤ) :
    DecodedInside sector start offset ↔ -4 ≤ offset ∧ offset ≤ 242 := by
  constructor
  · intro h
    by_contra hout
    rw [DecodedInside,readPartitionEntryIn_none hs start (by omega)] at h
    cases h
  · rintro ⟨hlow,hhigh⟩
    obtain ⟨m,hm⟩ := Int.eq_ofNat_of_zero_le (show 0 ≤ offset+4 by omega)
    have h8 : offset+8 = ((m+4:ℕ):ℤ) := by push_cast; omega
    have h12 : offset+12 = ((m+8:ℕ):ℤ) := by push_cast; omega
    have h16 : offset+16 = ((m+12:ℕ):ℤ) := by push_cast; omega
    simp only [sectorSizeBytes] at hs
    unfold DecodedInside readPartitionEntryIn parseBytesToDecimalUIn
    rw [hm,h8,h12,h16]
    simp only [Int.toNat_natCast]
    rw [sectorByte_eq (by omega),parseLoopIn_eq (by omega),parseLoopIn_eq (by omega),
      ← parseBytesToDecimalU,← parseBytesToDecimalU,parseBytesToDecimalU_low _ _ (by omega),
      parseBytesToDecimalU_low _ _ (by omega)]
    rfl

/-- The offset at which `read_mbr` looks for a partition. -/
def mbrOffset (partition_num : ℤ) : ℤ := firstPartitionOffset+partitionEntrySize*(partition_num-1)

/-- `read_mbr` stays inside the sector for these partition numbers only, and `read_ebr` never does. -/
theorem decodedInside_used_iff {sector : Buf} (hs : sector.size = sectorSizeBytes) (start : ℕ) :
    (∀ partition_num : ℤ, DecodedInside sector start (mbrOffset partition_num) ↔
      -27 ≤ partition_num ∧ partition_num ≤ -12) ∧
    ¬ DecodedInside sector start firstPartitionOffset := by
  refine ⟨fun partition_num => ?_,fun h => ?_⟩
  · rw [decodedInside_iff hs]
    simp only [mbrOffset,firstPartitionOffset,partitionEntrySize]
    omega
  · have hle := ((decodedInside_iff hs start _).mp h).2
    simp only [firstPartitionOffset] at hle
    omega

theorem decodedInside_used_iff_zero :
    (∀ partition_num : ℤ, DecodedInside (Buf.zero 512) 7 (mbrOffset partition_num) ↔
      -27 ≤ partition_num ∧ partition_num ≤ -12) ∧
    ¬ DecodedInside (Buf.zero 512) 7 firstPartitionOffset :=
  decodedInside_used_iff rfl 7

/-- For the length of the first entry of the MBR bytes up to 919 are asked for. -/
theorem first_entry_outside : (Buf.zero 512).size = sectorSizeBytes ∧ mbrOffset 1 = 446 ∧
    ¬ DecodedInside (Buf.zero 512) 0 (mbrOffset 1) := by
  decide

end MyFsck
