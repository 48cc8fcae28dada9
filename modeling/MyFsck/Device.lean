import MyFsck.ByteBuffer
import MyFsck.ErrorState

/-! The disk image, what the program prints, and the block and number primitives of
`readwrite.c` and `util.c`.
A run keeps the device it has reached also when it stops: on a failed read (`exit(-1)`), on an
access outside an array, on the use of a value that was never set, or for want of fuel. -/
namespace MyFsck

open ByteBuffer

inductive Fault
  | exit | outOfBounds | undefined | outOfFuel
  deriving DecidableEq

/-- The lines the program prints, in order, each with the values it prints. Two are not printed:
`writeBlock` records the block number given to a call of `write_block`, and `expand` stands only in
the noted walks, where an inode's blocks begin to be gone through as a directory. -/
inductive Event
  | writeBlock (block_offset : ℕ)
  | expand (inode_num : ℕ)
  | writeSectors (start_sector num_sectors : ℕ)
  | dirEntryIncorrect (parent_inode_num : ℕ) (subdir_name : List Byte) (inode : ℕ)
  | unreferencedInode (inode_num : ℕ)
  | cannotFindLostFound
  | refCount (inode_num is should_be : ℕ)
  | bitmapDifference (block_id : ℕ)
  | tooLarge
  deriving DecidableEq

structure Device where
  image : Buf
  out : List Event

abbrev Fsck := EStateM Fault Device

/-- An access to an array; one outside the array stops the run. -/
def inBounds {α : Type} : Option α → Fsck α
  | some a => pure a
  | none => throw .outOfBounds

def print (e : Event) : Fsck Unit := modify fun d => { d with out := d.out ++ [e] }

/-- `__u32` arithmetic. -/
def u32 (n : ℕ) : ℕ := n % 2^32

def sectorSizeBytes : ℕ := 512
def bitsPerByte : ℕ := 8

def readSectors (start_sector num_sectors : ℕ) : Fsck Buf := do
  let d ← get
  match d.image.window (start_sector*sectorSizeBytes) (sectorSizeBytes*num_sectors) with
  | some b => pure b
  | none => throw .exit

/-- A seek past the end and a write there extend the image file. -/
def writeSectors (start_sector num_sectors : ℕ) (src : Buf) : Fsck Unit := do
  print (.writeSectors start_sector num_sectors)
  modify fun d => { d with image := d.image.patch (start_sector*sectorSizeBytes) src }

/-- Where block `block_offset` starts: the sector offset is a `__u32` product. -/
def blockSector (partition_start block_size block_offset : ℕ) : ℕ :=
  partition_start + u32 (block_offset * (block_size/sectorSizeBytes))

/-- `partition_start` stands for the global `partition_entry.start`. -/
def readBlock (partition_start block_offset block_size : ℕ) : Fsck Buf :=
  readSectors (blockSector partition_start block_size block_offset) (block_size/sectorSizeBytes)

/-- The bytes written are those at the pointer `src + pos`. -/
def writeBlock (partition_start block_offset block_size : ℕ) (src : Buf) (pos : ℕ) : Fsck Unit := do
  let sector_per_block := block_size/sectorSizeBytes
  print (.writeBlock block_offset)
  let bytes ← inBounds (src.window pos (sectorSizeBytes*sector_per_block))
  writeSectors (blockSector partition_start block_size block_offset) sector_per_block bytes

/-- The loop of `parse_bytes_to_decimal_u` runs downwards; `k` bytes are still to come. -/
def parseLoop (entry_info : ℕ → Byte) (start : ℕ) : ℕ → ℕ → ℕ
  | 0, result => result
  | k+1, result =>
    parseLoop entry_info start k (u32 (result*2^8 + (entry_info (start+k)).toNat))

def parseBytesToDecimalU (entry_info : ℕ → Byte) (start len : ℕ) : ℕ :=
  parseLoop entry_info start len 0

/-- The same on an array: the bytes read are those at `start, …, start+len-1`. -/
def parse (b : Buf) (start len : ℕ) : Option ℕ :=
  if start+len ≤ b.size then some (parseBytesToDecimalU b.byte start len) else none

/-- `parse_bytes_to_decimal_s`, stored in a `__s16`. -/
def parseS16 (b : Buf) (start : ℕ) : Option ℤ :=
  (parse b start 2).map fun n => (BitVec.ofNat 16 n).toInt

/-- Four bytes read by `parse_bytes_to_decimal_u`, stored in a `__s32`. -/
def parseS32 (b : Buf) (start : ℕ) : Option ℤ :=
  (parse b start 4).map fun n => (BitVec.ofNat 32 n).toInt

def writeNumberIntoBlock (dir_block : Buf) (offset_in_block num byte_num : ℕ) : Option Buf :=
  if offset_in_block+byte_num ≤ dir_block.size then
    some (dir_block.putNum offset_in_block num byte_num)
  else none

/-- Divide by `n`; a division by 0 traps. -/
def checkDivisor (n : ℕ) : Fsck Unit := if n = 0 then throw .undefined else pure ()

def padTo4Bytes (len : ℕ) : ℕ := if len % 4 = 0 then len else 4*(len/4+1)

theorem u32_lt (n : ℕ) : u32 n < 2^32 := Nat.mod_lt _ (by norm_num)
theorem u32_eq {n : ℕ} (h : n < 2^32) : u32 n = n := Nat.mod_eq_of_lt h

theorem checkDivisor_pos {n : ℕ} (h : 0 < n) : checkDivisor n = pure () := if_neg (by omega)
theorem checkDivisor_inv {α : Type} {n : ℕ} {x : Fsck α} {a : α} {d d' : Device}
    (h : (checkDivisor n >>= fun _ => x).run d = .ok a d') : 0 < n ∧ x.run d = .ok a d' := by
  rcases Nat.eq_zero_or_pos n with rfl | hn
  · cases h
  · rw [checkDivisor_pos hn,pure_bind] at h
    exact ⟨hn,h⟩

@[simp] theorem inBounds_some {α : Type} (a : α) (d : Device) :
    (inBounds (some a)).run d = .ok a d := rfl
@[simp] theorem inBounds_none {α : Type} (d : Device) :
    (inBounds none : Fsck α).run d = .error .outOfBounds d := rfl
theorem inBounds_ok {α : Type} {o : Option α} {a : α} {d d' : Device}
    (h : (inBounds o).run d = .ok a d') : o = some a := by
  cases o with
  | none => cases h
  | some b =>
    cases h
    rfl

@[simp] theorem print_run (e : Event) (d : Device) :
    (print e).run d = .ok () { d with out := d.out ++ [e] } := rfl

theorem parseLoop_eq (f : ℕ → Byte) (start k r : ℕ) (hr : r < 2^32) :
    parseLoop f start k r = (r*256^k + num f start k) % 2^32 := by
  induction k generalizing r with
  | zero => simpa [parseLoop,num] using (Nat.mod_eq_of_lt hr).symm
  | succ k ih =>
    rw [parseLoop,ih _ (u32_lt _),num,u32,Nat.add_mod,Nat.mod_mul_mod,← Nat.add_mod]
    congr 1
    ring

theorem parseBytesToDecimalU_eq (f : ℕ → Byte) (start len : ℕ) :
    parseBytesToDecimalU f start len = num f start len % 2^32 := by
  rw [parseBytesToDecimalU,parseLoop_eq _ _ _ _ (by norm_num)]
  simp

theorem parseBytesToDecimalU_num (f : ℕ → Byte) (start : ℕ) {len : ℕ} (h : len ≤ 4) :
    parseBytesToDecimalU f start len = num f start len := by
  rw [parseBytesToDecimalU_eq]
  refine Nat.mod_eq_of_lt ((num_lt f start len).trans_le ?_)
  calc (256:ℕ)^len ≤ 256^4 := Nat.pow_le_pow_right (by norm_num) h
    _ = 2^32 := by norm_num

theorem parse_eq {b : Buf} {start len : ℕ} (hl : len ≤ 4) (h : start+len ≤ b.size) :
    parse b start len = some (num b.byte start len) := by
  simp [parse,h,parseBytesToDecimalU_num _ _ hl]

theorem writeNumberIntoBlock_eq {b : Buf} {off v n : ℕ} (h : off+n ≤ b.size) :
    writeNumberIntoBlock b off v n = some (b.putNum off v n) := by
  simp [writeNumberIntoBlock,h]

theorem le_padTo4Bytes (len : ℕ) : len ≤ padTo4Bytes len := by
  unfold padTo4Bytes
  split <;> omega

theorem padTo4Bytes_lt (len : ℕ) : padTo4Bytes len < len+4 := by
  unfold padTo4Bytes
  split <;> omega

theorem padTo4Bytes_mod (len : ℕ) : padTo4Bytes len % 4 = 0 := by
  unfold padTo4Bytes
  split <;> omega

end MyFsck
