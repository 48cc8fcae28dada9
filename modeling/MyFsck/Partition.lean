import MyFsck.Device

/-! Partition entries of the MBR and of the EBR chain (`partitionEntry.c`). -/
namespace MyFsck

open ByteBuffer

def invalidType : ℕ := 0xFF
def dosExtendedPartition : ℕ := 5
def ext2Fs : ℕ := 0x83
def firstPartitionOffset : ℕ := 446
def partitionEntrySize : ℕ := 16

structure PartitionEntry where
  type : ℕ
  start : ℕ
  length : ℕ
  deriving DecidableEq

/-- The memory a sector buffer is the first 512 bytes of. The partition decoder asks for more
bytes than the buffer has; `stack` is what lies behind it. -/
def sectorMemory (sector : Buf) (stack : ℕ → Byte) (i : ℕ) : Byte :=
  if i < sectorSizeBytes then sector.byte i else stack i

/-- The third argument of both number reads is the end of the field, not its length. -/
def readPartitionEntry (section_ : ℕ → Byte) (start : ℕ) (offset : ℤ) : PartitionEntry where
  type := (section_ (offset+4).toNat).toNat
  start := u32 (start + parseBytesToDecimalU section_ (offset+8).toNat (offset+12).toNat)
  length := parseBytesToDecimalU section_ (offset+12).toNat (offset+16).toNat

def readMbr (stack : ℕ → Byte) (mbr : Buf) (partition_num : ℤ) : Fsck PartitionEntry :=
  let offset : ℤ := firstPartitionOffset + partitionEntrySize*(partition_num-1)
  -- the first byte of an entry that is read is its fifth
  if 0 ≤ offset+4 then pure (readPartitionEntry (sectorMemory mbr stack) 0 offset)
  else throw .outOfBounds

/-- The loop of `read_ebr`, and its call of itself on a nested extended entry; `last` is the
entry read last. -/
def readEbr (stack : ℕ → Byte) : ℕ → (start stop : ℕ) → (partition_num : ℤ) →
    (last : PartitionEntry) → Fsck PartitionEntry
  | 0, _, _, _, _ => throw .outOfFuel
  | fuel+1, start, stop, partition_num, last =>
    if partition_num = 4 then pure last
    else if stop ≤ start then pure { last with type := invalidType }
    else do
      let new_sector ← readSectors start 1
      let entry := readPartitionEntry (sectorMemory new_sector stack) start firstPartitionOffset
      let next := u32 (entry.start+entry.length)
      if stop < next then pure { entry with type := invalidType }
      else if entry.type = dosExtendedPartition then
        readEbr stack fuel entry.start next partition_num entry
      else readEbr stack fuel next stop (partition_num-1) entry

/-- The first of the entries `i, …, 4` of the MBR that is extended. -/
def findExtended (stack : ℕ → Byte) (mbr : Buf) : List ℤ → Fsck (Option PartitionEntry)
  | [] => pure none
  | i::is => do
    let entry ← readMbr stack mbr i
    if entry.type = dosExtendedPartition then pure (some entry) else findExtended stack mbr is

/-- What `read_partition_info` leaves in the global `partition_entry`; `old` is its value before. -/
def readPartitionInfo (stack : ℕ → Byte) (fuel : ℕ) (old : PartitionEntry) (partition_num : ℤ) :
    Fsck PartitionEntry := do
  let mbr ← readSectors 0 1
  if partition_num ≤ 4 then readMbr stack mbr partition_num
  else
    match ← findExtended stack mbr [1,2,3,4] with
    | none => pure { old with type := invalidType }
    | some base =>
      readEbr stack fuel base.start (u32 (base.start+base.length)) partition_num base

theorem parseBytesToDecimalU_low (f : ℕ → Byte) (pos : ℕ) {len : ℕ} (h : 4 ≤ len) :
    parseBytesToDecimalU f pos len = num f pos 4 := by
  rw [parseBytesToDecimalU_eq]
  induction len,h using Nat.le_induction with
  | base => exact Nat.mod_eq_of_lt ((num_lt f pos 4).trans_eq (by norm_num))
  | succ n hn ih =>
    have hd : (2:ℕ)^32 ∣ (f (pos+n)).toNat * 256^n :=
      Dvd.dvd.mul_left ((by norm_num : (2:ℕ)^32 = 256^4) ▸ pow_dvd_pow 256 hn) _
    rw [num,Nat.add_mod,Nat.mod_eq_zero_of_dvd hd,Nat.add_zero,Nat.mod_mod]
    exact ih

theorem readPartitionEntry_eq (section_ : ℕ → Byte) (start : ℕ) {offset : ℤ} (h : 0 ≤ offset+4) :
    readPartitionEntry section_ start offset =
      ⟨(section_ (offset+4).toNat).toNat,u32 (start + num section_ (offset+8).toNat 4),
        num section_ (offset+12).toNat 4⟩ := by
  simp only [readPartitionEntry,parseBytesToDecimalU_low section_ _ (by omega : 4 ≤ (offset+12).toNat),
    parseBytesToDecimalU_low section_ _ (by omega : 4 ≤ (offset+16).toNat)]

end MyFsck
