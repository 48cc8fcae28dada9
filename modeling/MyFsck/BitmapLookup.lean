import MyFsck.BlockBitmap

/-! Where the program looks for the bit of an inode or a block: the bitmaps of all groups are loaded
one behind the other, each padded to a whole block, and the number itself is the index. -/
namespace MyFsck

open ByteBuffer ErrorState

/-- A block in which only bit `r` is set. -/
def oneBit (size r : ℕ) : Buf := Buf.ofFn size fun k => if k = r/8 then 1#8 <<< (r%8) else 0

theorem bitAt_zero (size r : ℕ) : bitAt (Buf.zero size) (r+1) = false := by
  unfold bitAt
  simp

theorem bitAt_oneBit {size r r' : ℕ} (hr : r' < 8*size) :
    bitAt (oneBit size r) (r'+1) = decide (r' = r) := by
  unfold bitAt oneBit
  rw [Nat.add_sub_cancel,Buf.ofFn_byte_lt _ (by omega)]
  by_cases hq : r'/8 = r/8
  · rw [if_pos hq,BitVec.getLsbD_shiftLeft]
    have hlt : r'%8 < 8 := Nat.mod_lt _ (by norm_num)
    by_cases he : r'%8 = r%8
    · have hr' : r' = r := by omega
      simp [hr',Nat.mod_lt r (show 8 > 0 by norm_num)]
    · have hr' : r' ≠ r := by omega
      have hone : (1#8).getLsbD (r'%8-r%8) = decide (r'%8-r%8 = 0) := by simp [BitVec.getLsbD_one]
      rw [hone]
      by_cases hle : r'%8 < r%8
      · simp [hle,hr']
      · have h₀ : r'%8-r%8 ≠ 0 := by omega
        simp [h₀,hr']
  · have hr' : r' ≠ r := fun h => hq (by rw [h])
    rw [if_neg hq]
    simp [hr']

/-- The numbers `first, …, stop-1`, in groups of `per`; `count` is what the program computes the
number of groups from, and `home` is the block of a group's bitmap. -/
structure Numbering where
  count : ℕ
  per : ℕ
  first : ℕ
  stop : ℕ
  home : ℕ → ℕ

namespace Numbering

variable (N : Numbering)

/-- The group of a number and its place in the group's bitmap. -/
def group (n : ℕ) : ℕ := (n-N.first)/N.per
def slot (n : ℕ) : ℕ := (n-N.first)%N.per

/-- The groups there are, and those the program counts. -/
def groups : ℕ := (N.stop-N.first+N.per-1)/N.per
def counted : ℕ := (N.count+N.per-1)/N.per

/-- The bit of a number in the bitmap of its group. -/
def bit (g : Globals) (img : Buf) (n : ℕ) : Bool :=
  bitAt (g.blockAt img (N.home (N.group n))) (N.slot n+1)

end Numbering

def Globals.inodeNumbers (g : Globals) : Numbering :=
  ⟨g.superBlock.sInodesCount,g.superBlock.sInodesPerGroup,1,g.superBlock.sInodesCount+1,
    g.inodeBitmap⟩

def Globals.blockNumbers (g : Globals) : Numbering :=
  ⟨g.superBlock.sBlocksCount,g.superBlock.sBlocksPerGroup,g.superBlock.sFirstDataBlock,
    g.superBlock.sBlocksCount,g.blockBitmap⟩

/-- The bitmap is loaded, and each number is looked up in it with the bit it has in its group. -/
def RightBits (g : Globals) (N : Numbering) (load : Fsck Buf) (lookup : Buf → ℕ → Option Byte)
    (d : Device) : Prop :=
  ∃ bm d', load.run d = .ok bm d' ∧
    ∀ n, N.first ≤ n → n < N.stop → lookup bm n = some (ofBit (N.bit g d.image n))

/-- A byte of a bitmap. -/
def Globals.BitmapByte (g : Globals) (N : Numbering) (k : ℕ) : Prop :=
  ∃ a < N.groups, g.blockOffset (N.home a) ≤ k ∧ k < g.blockOffset (N.home a)+g.blockSize

/-- What a superblock and its group descriptors say about one of the two bitmaps: a group's bitmap fits
its one block, the block is in the file system, and no other group has it. The descriptors are those
of the block that is loaded. -/
structure Numbered (g : Globals) (N : Numbering) : Prop where
  per_pos : 0 < N.per
  per_lt : N.per < 2^32
  per_le : N.per ≤ 8*g.blockSize
  count_lt : N.count < 2^32
  first_lt : N.first < N.stop
  count_le : N.count ≤ N.stop
  stop_le : N.stop ≤ N.count+1
  span_le : N.stop ≤ N.count+N.first
  home_lt : ∀ a < N.counted, a*groupDescSize < g.blockSize → N.home a < g.superBlock.sBlocksCount
  home_ne : ∀ a < N.groups, ∀ b < N.counted, a ≠ b ∧ a*groupDescSize < g.blockSize ∧
    b*groupDescSize < g.blockSize → N.home a ≠ N.home b

/-- The condition for one bitmap: no sum overflows, the descriptors of all groups are in the block that
is loaded, the first number is 1, and a group's bitmap fills its block or there is one group only. -/
structure Numbering.Flat (N : Numbering) (block_size : ℕ) : Prop where
  count_le : N.count+N.per ≤ 2^32
  per_le : N.per+bitsPerByte ≤ 2^32
  desc_le : N.counted*groupDescSize ≤ block_size
  first_eq : N.first = 1
  full : N.per = 8*block_size ∨ N.stop ≤ N.per+1

/-- Both loaders: `group_num` bitmaps of `block_num` blocks, each named by a field of a descriptor. -/
def Globals.loadBitmaps (g : Globals) (field : GroupDesc → ℕ) (group_num block_num : ℕ) : Fsck Buf :=
  (List.range group_num).foldlM (fun bitmap i => do
    let b ← (do
      let group_desc ← readGroupDesc g i
      g.readBlocks (field group_desc) block_num (block_num*g.blockSize))
    inBounds (bitmap.overlay (u32 (i*block_num*g.blockSize)) b))
    (Buf.zero (u32 (group_num*block_num*g.blockSize)))

/-- What the program takes for the number of groups. -/
def groupNum (count per : ℕ) : ℕ := u32 (count+per+(2^32-1))/per

/-- What it takes for the number of blocks of a group's bitmap. -/
def bitmapBlocks (per block_size : ℕ) : ℕ :=
  u32 (u32 (per+bitsPerByte+(2^32-1))/bitsPerByte+block_size+(2^32-1))/block_size

theorem getInodeBitmapInPartition_eq (g : Globals) :
    g.getInodeBitmapInPartition = g.loadBitmaps GroupDesc.bgInodeBitmap
      (groupNum g.superBlock.sInodesCount g.superBlock.sInodesPerGroup)
      (bitmapBlocks g.superBlock.sInodesPerGroup g.blockSize) := rfl

theorem getBlockBitmapInPartition_eq (g : Globals) :
    g.getBlockBitmapInPartition = g.loadBitmaps GroupDesc.bgBlockBitmap
      (groupNum g.superBlock.sBlocksCount g.superBlock.sBlocksPerGroup)
      (bitmapBlocks g.superBlock.sBlocksPerGroup g.blockSize) := rfl

section Counts

variable {count per block_size : ℕ}

theorem groupNum_eq (hp : 0 < per) (h : count+per ≤ 2^32) :
    groupNum count per = (count+per-1)/per := by
  have he : u32 (count+per+(2^32-1)) = count+per-1 := by
    unfold u32
    omega
  rw [groupNum,he]

theorem groupNum_zero (hc : count < 2^32) (hp : per < 2^32) (h : 2^32 < count+per) :
    groupNum count per = 0 := by
  refine Nat.div_eq_of_lt ?_
  unfold u32
  omega

theorem bitmapBlocks_one (hb : block_size ≤ 2^30) (hp : 0 < per) (hle : per ≤ 8*block_size)
    (h : per+bitsPerByte ≤ 2^32) : bitmapBlocks per block_size = 1 := by
  unfold bitmapBlocks u32
  simp only [bitsPerByte] at h ⊢
  have h₁ : (per+8+(2^32-1))%2^32 = per+7 := by omega
  rw [h₁]
  have h₂ : (per+7)/8 ≤ block_size := by omega
  have h₃ : 0 < (per+7)/8 := by omega
  have h₄ : ((per+7)/8+block_size+(2^32-1))%2^32 = (per+7)/8-1+block_size := by omega
  rw [h₄,Nat.add_div_right _ (by omega),Nat.div_eq_of_lt (by omega)]

theorem bitmapBlocks_zero (hb : 0 < block_size) (hb' : block_size ≤ 2^30) (hp : per < 2^32)
    (h : 2^32 < per+bitsPerByte) : bitmapBlocks per block_size = 0 := by
  unfold bitmapBlocks u32
  simp only [bitsPerByte] at h ⊢
  refine Nat.div_eq_of_lt ?_
  omega

end Counts

section Load

variable {g : Globals} {N : Numbering} {field : GroupDesc → ℕ}

/-- The field of a descriptor that names the bitmap of a group. -/
def Names (g : Globals) (N : Numbering) (field : GroupDesc → ℕ) : Prop :=
  ∀ d a, a*groupDescSize+groupDescSize ≤ g.groupDescBlock.size → a*groupDescSize < 2^32 →
    ∃ gd, (readGroupDesc g a).run d = .ok gd d ∧ field gd = N.home a

theorem inodeNumbers_names (g : Globals) : Names g g.inodeNumbers GroupDesc.bgInodeBitmap := by
  intro d a h h'
  obtain ⟨gd,hgd,_,hi,_⟩ := readGroupDesc_run (g := g) d a h h'
  exact ⟨gd,hgd,hi⟩

theorem blockNumbers_names (g : Globals) : Names g g.blockNumbers GroupDesc.bgBlockBitmap := by
  intro d a h h'
  obtain ⟨gd,hgd,hb,_,_⟩ := readGroupDesc_run (g := g) d a h h'
  exact ⟨gd,hgd,hb⟩

/-- The bitmap blocks of the first `n` groups one behind the other. -/
def Numbering.flat (N : Numbering) (g : Globals) (img : Buf) (n : ℕ) : Buf :=
  Buf.concat g.blockSize n fun a => g.blockAt img (N.home a)

theorem loadBitmaps_run (hs : BlockSizes g) (hN : Names g N field) {d : Device}
    (hf : g.Fits d.image) {n : ℕ} (hdesc : n*groupDescSize ≤ g.groupDescBlock.size)
    (hdesc' : n*groupDescSize ≤ 2^32) (hsize : n*g.blockSize < 2^32)
    (hhome : ∀ a < n, N.home a < g.superBlock.sBlocksCount) :
    (g.loadBitmaps field n 1).run d = .ok (N.flat g d.image n) d := by
  unfold Globals.loadBitmaps
  rw [Nat.mul_one,u32_eq hsize]
  refine overlayLoop_run (fun _ _ => rfl) (fun i hi => ?_) fun i hi => ?_
  · rw [Nat.mul_one,u32_eq ((Nat.mul_le_mul_right _ hi.le).trans_lt hsize)]
  · have hi' := Nat.mul_le_mul_right groupDescSize hi
    simp only [Nat.succ_mul,groupDescSize] at hi' hdesc hdesc'
    obtain ⟨gd,hgd,hname⟩ := hN d i (by simp only [groupDescSize]; omega)
      (by simp only [groupDescSize]; omega)
    have hlt := hhome i hi
    rw [bind_ok hgd,hname,readBlocks_run hs hf (by omega),blocksAt_one]

theorem overlay_size {b b' src : Buf} {off : ℕ} {d d' : Device}
    (h : (inBounds (b.overlay off src)).run d = .ok b' d') : b'.size = b.size := by
  obtain ⟨hle,rfl⟩ := Buf.overlay_some (inBounds_ok h)
  exact Buf.patch_size_of_le hle

theorem readBlocks_size {start n size : ℕ} {d d' : Device} {b : Buf}
    (h : (g.readBlocks start n size).run d = .ok b d') : b.size = size := by
  have key := Triple.foldlM (E := fun _ => True) (I := fun (buf : Buf) (_ : Device) => buf.size = size)
    (f := fun (buf : Buf) i => do
      let c ← g.block (u32 (start+i))
      inBounds (buf.overlay (g.blockSize*i) c)) (List.range n) (fun buf i _ s hs => by
        split
        · rename_i hrun
          obtain ⟨c,t',_,hc⟩ := bind_ok_inv hrun
          exact (overlay_size hc).trans hs
        · trivial) (Buf.zero size) d rfl
  unfold Globals.readBlocks at h
  rwa [h] at key

theorem loadBitmaps_size {group_num block_num : ℕ} {d d' : Device} {bm : Buf}
    (h : (g.loadBitmaps field group_num block_num).run d = .ok bm d') :
    bm.size = u32 (group_num*block_num*g.blockSize) := by
  have key := Triple.foldlM (E := fun _ => True)
    (I := fun (buf : Buf) (_ : Device) => buf.size = u32 (group_num*block_num*g.blockSize))
    (f := fun (buf : Buf) i => do
      let b ← (do
        let group_desc ← readGroupDesc g i
        g.readBlocks (field group_desc) block_num (block_num*g.blockSize))
      inBounds (buf.overlay (u32 (i*block_num*g.blockSize)) b)) (List.range group_num)
    (fun buf i _ s hs => by
      split
      · rename_i hrun
        obtain ⟨c,t',_,hc⟩ := bind_ok_inv hrun
        exact (overlay_size hc).trans hs
      · trivial) (Buf.zero (u32 (group_num*block_num*g.blockSize))) d rfl
  unfold Globals.loadBitmaps at h
  rwa [h] at key

theorem readGroupDesc_ok {i : ℕ} {gd : GroupDesc} {d d' : Device}
    (h : (readGroupDesc g i).run d = .ok gd d') :
    u32 (i*groupDescSize) < g.groupDescBlock.size := by
  unfold readGroupDesc at h
  have hdec := inBounds_ok h
  unfold decodeGroupDesc at hdec
  obtain ⟨v,hv,_⟩ := Option.bind_eq_some_iff.mp hdec
  unfold parse at hv
  split at hv
  · omega
  · simp at hv

theorem loadBitmaps_ok {n : ℕ} {d d' : Device} {bm : Buf}
    (h : (g.loadBitmaps field n 1).run d = .ok bm d') {i : ℕ} (hi : i < n) :
    u32 (i*g.blockSize)+g.blockSize ≤ u32 (n*g.blockSize) ∧
      ∃ gd t t', (readGroupDesc g i).run t = .ok gd t' := by
  unfold Globals.loadBitmaps at h
  obtain ⟨c,t,c',t',hsize,hrun⟩ := foldlM_ok_at (P := fun (b : Buf) => b.size = u32 (n*g.blockSize))
    (fun b a s b' s' hb hrun => by
      obtain ⟨_,_,_,hover⟩ := bind_ok_inv hrun
      exact (overlay_size hover).trans hb)
    (by rw [Buf.zero_size,Nat.mul_one]) h (List.mem_range.mpr hi)
  obtain ⟨b,t₁,hread,hover⟩ := bind_ok_inv hrun
  obtain ⟨gd,t₂,hgd,hblocks⟩ := bind_ok_inv hread
  have hover' := (Buf.overlay_some (inBounds_ok hover)).1
  rw [readBlocks_size hblocks,hsize,Nat.mul_one,Nat.one_mul] at hover'
  exact ⟨hover',gd,t,t₂,hgd⟩

end Load

section Lookup

variable {g : Globals} {N : Numbering} {img : Buf}

theorem allocBit_lt {bm : Buf} {n : ℕ} {v : Byte} (h : allocBit bm n = some v) :
    pred32 n/8 < bm.size := by
  unfold allocBit at h
  obtain ⟨c,hc,_⟩ := Option.bind_eq_some_iff.mp h
  unfold Buf.load at hc
  split at hc
  · assumption
  · simp at hc

theorem allocBit_flat {n groups : ℕ} (h : pred32 n/8 < (N.flat g img groups).size) :
    pred32 n/(8*g.blockSize) < groups ∧ allocBit (N.flat g img groups) n =
      some (ofBit (bitAt (g.blockAt img (N.home (pred32 n/(8*g.blockSize))))
        (pred32 n%(8*g.blockSize)+1))) := by
  have hsize : (N.flat g img groups).size = groups*g.blockSize := rfl
  rw [hsize] at h
  have hpos : 0 < g.blockSize := by
    by_contra h0
    rw [Nat.eq_zero_of_not_pos h0] at h
    omega
  have hlt : pred32 n/(8*g.blockSize) < groups := by
    rw [← Nat.div_div_eq_div_mul,Nat.div_lt_iff_lt_mul hpos]
    exact h
  refine ⟨hlt,?_⟩
  have hmod := Nat.mod_lt (pred32 n) (show 0 < 8*g.blockSize by omega)
  have hdiv := Nat.div_add_mod (pred32 n) (8*g.blockSize)
  generalize pred32 n/(8*g.blockSize) = q at hlt hdiv
  generalize hr : pred32 n%(8*g.blockSize) = r at hmod hdiv
  have hidx : pred32 n/8 = q*g.blockSize+r/8 := by
    have : 8*g.blockSize*q = 8*(q*g.blockSize) := by ring
    omega
  have hbit : pred32 n%8 = r%8 := by
    have : 8*g.blockSize*q = 8*(q*g.blockSize) := by ring
    omega
  have hbyte : (N.flat g img groups).byte (q*g.blockSize+r/8) =
      (g.blockAt img (N.home q)).byte (r/8) := Buf.concat_byte _ hlt (by omega)
  unfold allocBit bitsPerByte bitAt
  rw [Buf.load_eq (by rw [hsize]; exact h),hidx,hbit,hbyte,Nat.add_sub_cancel]
  exact congrArg some (shift_and_one _ _)

theorem place_eq (hs : BlockSizes g) {c c' r r' : ℕ} (hr : r < 8*g.blockSize)
    (hr' : r' < 8*g.blockSize) (h : ∀ src : Buf, src.size = g.blockSize →
      bitAt (g.blockAt (g.setBlock img c' src) c) (r+1) =
        bitAt (g.blockAt (g.setBlock img c' src) c') (r'+1)) : c = c' ∧ r = r' := by
  have hone := h (oneBit g.blockSize r') rfl
  rw [blockAt_setBlock_self (by rfl),bitAt_oneBit hr'] at hone
  by_cases hc : c = c'
  · subst hc
    rw [blockAt_setBlock_self (by rfl),bitAt_oneBit hr] at hone
    exact ⟨rfl,by simpa using hone⟩
  · have hzero := h (Buf.zero g.blockSize) rfl
    rw [blockAt_setBlock_self (by rfl),bitAt_zero,blockAt_setBlock_ne hs (by rfl) hc] at hzero
    rw [blockAt_setBlock_ne hs (by rfl) hc,hzero] at hone
    simp at hone

theorem setBlock_agreeOff (hs : BlockSizes g) (hf : g.Fits img) {a : ℕ} (ha : a < N.groups)
    (hlt : N.home a < g.superBlock.sBlocksCount) {src : Buf} (hsrc : src.size = g.blockSize) :
    Buf.AgreeOff (g.BitmapByte N) img (g.setBlock img (N.home a) src) := by
  refine Buf.AgreeOff.patch_self (by rw [hsrc]; exact hs.offset_in hf hlt) fun j hj hout => ?_
  exact absurd ⟨a,ha,by omega,by omega⟩ hout

end Lookup

namespace Numbered

variable {g : Globals} {N : Numbering} {img : Buf} {field : GroupDesc → ℕ}

theorem groups_le (hN : Numbered g N) : N.groups ≤ N.counted := by
  have h := hN.span_le
  refine Nat.div_le_div_right ?_
  omega

theorem group_lt (hN : Numbered g N) {n : ℕ} (h : n < N.stop) (h' : N.first ≤ n) :
    N.group n < N.groups := div_lt_roundUp hN.per_pos (by omega)

theorem slot_lt (hN : Numbered g N) (n : ℕ) : N.slot n < 8*g.blockSize :=
  (Nat.mod_lt _ hN.per_pos).trans_le hN.per_le

theorem size_lt (hN : Numbered g N) (hbs : g.blockSize ≤ 2^30) (hflat : N.Flat g.blockSize) :
    N.counted*g.blockSize < 2^32 := by
  have hp := hN.per_pos
  have hle := hN.per_le
  have hcount := hN.count_le
  have hsum := hflat.count_le
  have hmul : N.counted*N.per ≤ N.count+N.per-1 := Nat.div_mul_le_self _ _
  rcases hflat.full with hfull | hone
  · have : N.counted*N.per = 8*(N.counted*g.blockSize) := by
      rw [hfull]
      ring
    omega
  · have hlt : N.counted < 3 := by
      unfold Numbering.counted
      rw [Nat.div_lt_iff_lt_mul hp]
      omega
    have := Nat.mul_le_mul (Nat.le_of_lt_succ hlt) hbs
    omega

theorem place_of_flat (hN : Numbered g N) (hflat : N.Flat g.blockSize) {n : ℕ} (h1 : N.first ≤ n)
    (hn : n < N.stop) : pred32 n/(8*g.blockSize) = N.group n ∧
      pred32 n%(8*g.blockSize) = N.slot n := by
  have hle := hN.per_le
  have hstop := hN.stop_le
  have hcount := hN.count_lt
  have hfirst := hflat.first_eq
  unfold Numbering.group Numbering.slot
  rw [hfirst] at h1 ⊢
  rw [pred32_eq h1 (by omega)]
  rcases hflat.full with hfull | hone
  · rw [hfull]
    exact ⟨rfl,rfl⟩
  · have hlt : n-1 < N.per := by omega
    rw [Nat.div_eq_of_lt (by omega),Nat.div_eq_of_lt hlt,Nat.mod_eq_of_lt (by omega),
      Nat.mod_eq_of_lt hlt]
    exact ⟨rfl,rfl⟩

theorem full_of_place (hN : Numbered g N) (h : ∀ n, N.first ≤ n → n < N.stop →
    pred32 n/(8*g.blockSize) = N.group n ∧ pred32 n%(8*g.blockSize) = N.slot n) :
    N.first = 1 ∧ (N.per = 8*g.blockSize ∨ N.stop ≤ N.per+1) := by
  have hp := hN.per_pos
  have hle := hN.per_le
  have hstop := hN.stop_le
  have hcount := hN.count_lt
  have hone : N.first = 1 := by
    obtain ⟨hq,hr⟩ := h N.first le_rfl hN.first_lt
    have hdiv := Nat.div_add_mod (pred32 N.first) (8*g.blockSize)
    rw [hq,hr,Numbering.group,Numbering.slot,Nat.sub_self,Nat.zero_div,Nat.zero_mod] at hdiv
    have hlt := hN.first_lt
    unfold pred32 u32 at hdiv
    omega
  refine ⟨hone,?_⟩
  by_contra hfull
  rw [not_or] at hfull
  obtain ⟨hq,-⟩ := h (N.per+1) (by omega) (by omega)
  rw [pred32_eq (by omega) (by omega),Nat.add_sub_cancel,Nat.div_eq_of_lt (by omega),
    Numbering.group,hone,Nat.add_sub_cancel,Nat.div_self hp] at hq
  simp at hq

section Program

variable (hs : BlockSizes g) (hbs : g.blockSize ≤ 2^30)
  (hdesc : g.groupDescBlock.size = g.blockSize)
include hs hbs hdesc

theorem loaded (hN : Numbered g N) {d d' : Device} {bm : Buf}
    (hload : (g.loadBitmaps field (groupNum N.count N.per) (bitmapBlocks N.per g.blockSize)).run d =
      .ok bm d') (hin : 0 < bm.size) :
    N.count+N.per ≤ 2^32 ∧ N.per+bitsPerByte ≤ 2^32 ∧ N.counted*groupDescSize ≤ g.blockSize ∧
      N.counted*g.blockSize < 2^32 := by
  have hpos := hs.block_pos
  have hsum : N.count+N.per ≤ 2^32 := by
    by_contra hover
    rw [loadBitmaps_size hload,groupNum_zero hN.count_lt hN.per_lt (by omega)] at hin
    simp [u32] at hin
  have hsum' : N.per+bitsPerByte ≤ 2^32 := by
    by_contra hover
    rw [loadBitmaps_size hload,bitmapBlocks_zero hpos hbs hN.per_lt (by omega)] at hin
    simp [u32] at hin
  rw [groupNum_eq hN.per_pos hsum,bitmapBlocks_one hbs hN.per_pos hN.per_le hsum',
    ← Numbering.counted] at hload
  refine ⟨hsum,hsum',?_,?_⟩
  · by_contra hover
    obtain ⟨k,hk⟩ := hs.sector_dvd
    simp only [sectorSizeBytes,groupDescSize] at hk hover
    obtain ⟨-,gd,t,t',hgd⟩ := loadBitmaps_ok hload (show 16*k < N.counted by omega)
    have hlt := readGroupDesc_ok hgd
    rw [hdesc,u32_eq (by simp only [groupDescSize]; omega)] at hlt
    simp only [groupDescSize] at hlt
    omega
  · by_contra hover
    have hlt := u32_lt (N.counted*g.blockSize)
    have hdiv := Nat.div_mul_le_self (u32 (N.counted*g.blockSize)) g.blockSize
    have hbehind := Nat.lt_div_mul_add (a := u32 (N.counted*g.blockSize)) hpos
    have hi : u32 (N.counted*g.blockSize)/g.blockSize < N.counted := by
      rw [Nat.div_lt_iff_lt_mul hpos]
      omega
    obtain ⟨hroom,-⟩ := loadBitmaps_ok hload hi
    rw [u32_eq (by omega)] at hroom
    omega

variable (hname : Names g N field)
include hname

theorem load_run (hN : Numbered g N) (hle : N.counted*groupDescSize ≤ g.blockSize)
    (hsize : N.counted*g.blockSize < 2^32) {d : Device} (hf : g.Fits d.image) :
    (g.loadBitmaps field N.counted 1).run d = .ok (N.flat g d.image N.counted) d := by
  refine loadBitmaps_run hs hname hf (hdesc ▸ hle) (hle.trans (hbs.trans (by norm_num))) hsize
    fun a ha => hN.home_lt a ha ?_
  have hmul := Nat.mul_le_mul_right groupDescSize ha
  simp only [Nat.succ_mul,groupDescSize] at hmul hle ⊢
  omega

theorem rightBits (hN : Numbered g N) (hflat : N.Flat g.blockSize) {d : Device}
    (hf : g.Fits d.image) : RightBits g N (g.loadBitmaps field (groupNum N.count N.per)
      (bitmapBlocks N.per g.blockSize)) allocBit d := by
  rw [groupNum_eq hN.per_pos hflat.count_le,bitmapBlocks_one hbs hN.per_pos hN.per_le hflat.per_le]
  refine ⟨_,_,hN.load_run hs hbs hdesc hname hflat.desc_le (hN.size_lt hbs hflat) hf,
    fun n h1 hn => ?_⟩
  obtain ⟨hq,hr⟩ := hN.place_of_flat hflat h1 hn
  have hlt := (hN.group_lt hn h1).trans_le hN.groups_le
  have hin : pred32 n/8 < (N.flat g d.image N.counted).size := by
    rw [← hq,← Nat.div_div_eq_div_mul,Nat.div_lt_iff_lt_mul hs.block_pos] at hlt
    exact hlt
  rw [(allocBit_flat hin).2,hq,hr,Numbering.bit]

theorem flat_of_rightBits (hN : Numbered g N) (hf : g.Fits img)
    (h : ∀ d : Device, Buf.AgreeOff (g.BitmapByte N) img d.image →
      RightBits g N (g.loadBitmaps field (groupNum N.count N.per) (bitmapBlocks N.per g.blockSize))
        allocBit d) : N.Flat g.blockSize := by
  have hpos := hs.block_pos
  obtain ⟨bm,d',hload,hbits⟩ := h ⟨img,[]⟩ (Buf.AgreeOff.refl _ _)
  obtain ⟨hsum,hsum',hle,hsize⟩ := hN.loaded hs hbs hdesc hload
    (Nat.zero_lt_of_lt (allocBit_lt (hbits N.first le_rfl hN.first_lt)))
  rw [groupNum_eq hN.per_pos hsum,bitmapBlocks_one hbs hN.per_pos hN.per_le hsum',
    ← Numbering.counted] at h
  suffices hplace : ∀ n, N.first ≤ n → n < N.stop →
      pred32 n/(8*g.blockSize) = N.group n ∧ pred32 n%(8*g.blockSize) = N.slot n from
    ⟨hsum,hsum',hle,(hN.full_of_place hplace).1,(hN.full_of_place hplace).2⟩
  intro n h1 hn
  have hgroup := hN.group_lt hn h1
  have hlt := hgroup.trans_le hN.groups_le
  have hdescs : ∀ a < N.counted, a*groupDescSize < g.blockSize := fun a ha => by
    have hmul := Nat.mul_le_mul_right groupDescSize ha
    simp only [Nat.succ_mul,groupDescSize] at hmul hle ⊢
    omega
  have hhome := hN.home_lt _ hlt (hdescs _ hlt)
  have hboth : ∀ src : Buf, src.size = g.blockSize →
      pred32 n/(8*g.blockSize) < N.counted ∧
      bitAt (g.blockAt (g.setBlock img (N.home (N.group n)) src) (N.home (pred32 n/(8*g.blockSize))))
        (pred32 n%(8*g.blockSize)+1) =
      bitAt (g.blockAt (g.setBlock img (N.home (N.group n)) src) (N.home (N.group n)))
        (N.slot n+1) := by
    intro src hsrc
    obtain ⟨bm',d₁,hload',hbits'⟩ := h ⟨g.setBlock img (N.home (N.group n)) src,[]⟩
      (setBlock_agreeOff hs hf hgroup hhome hsrc)
    have hrun := hN.load_run hs hbs hdesc hname hle hsize
      (d := ⟨g.setBlock img (N.home (N.group n)) src,[]⟩) (setBlock_fits hs hf hhome hsrc)
    obtain ⟨rfl,-⟩ := EStateM.Result.ok.inj (hrun.symm.trans hload')
    have hbit := hbits' n h1 hn
    obtain ⟨hq,hv⟩ := allocBit_flat (allocBit_lt hbit)
    rw [hv] at hbit
    exact ⟨hq,ofBit_inj.mp (Option.some.inj hbit)⟩
  have hq := (hboth (Buf.zero g.blockSize) rfl).1
  obtain ⟨hc,hr⟩ := place_eq hs (Nat.mod_lt _ (by omega)) (hN.slot_lt n) fun src hsrc =>
    (hboth src hsrc).2
  refine ⟨?_,hr⟩
  by_contra hne
  exact hN.home_ne _ hgroup _ hq ⟨Ne.symm hne,hdescs _ hlt,hdescs _ hq⟩ hc.symm

end Program

end Numbered

instance (g : Globals) (N : Numbering) : Decidable (Numbered g N) :=
  decidable_of_iff (0 < N.per ∧ N.per < 2^32 ∧ N.per ≤ 8*g.blockSize ∧ N.count < 2^32 ∧
    N.first < N.stop ∧ N.count ≤ N.stop ∧ N.stop ≤ N.count+1 ∧ N.stop ≤ N.count+N.first ∧
    (∀ a < N.counted, a*groupDescSize < g.blockSize → N.home a < g.superBlock.sBlocksCount) ∧
    ∀ a < N.groups, ∀ b < N.counted, a ≠ b ∧ a*groupDescSize < g.blockSize ∧
      b*groupDescSize < g.blockSize → N.home a ≠ N.home b)
    ⟨fun ⟨h₁,h₂,h₃,h₄,h₅,h₆,h₇,h₈,h₉,h₁₀⟩ => ⟨h₁,h₂,h₃,h₄,h₅,h₆,h₇,h₈,h₉,h₁₀⟩,
      fun ⟨h₁,h₂,h₃,h₄,h₅,h₆,h₇,h₈,h₉,h₁₀⟩ => ⟨h₁,h₂,h₃,h₄,h₅,h₆,h₇,h₈,h₉,h₁₀⟩⟩

/-- The bitmaps of a file system: those of its inodes and those of its blocks. -/
structure BitmapLayout (g : Globals) : Prop extends BlockSizes g where
  block_le : g.blockSize ≤ 2^30
  desc_size : g.groupDescBlock.size = g.blockSize
  inodes : Numbered g g.inodeNumbers
  blocks : Numbered g g.blockNumbers

instance (g : Globals) : Decidable (BitmapLayout g) :=
  decidable_of_iff (0 < g.blockSize ∧ sectorSizeBytes ∣ g.blockSize ∧
    g.superBlock.sBlocksCount*(g.blockSize/sectorSizeBytes) < 2^32 ∧ g.blockSize ≤ 2^30 ∧
    g.groupDescBlock.size = g.blockSize ∧ Numbered g g.inodeNumbers ∧ Numbered g g.blockNumbers)
    ⟨fun ⟨h₁,h₂,h₃,h₄,h₅,h₆,h₇⟩ => ⟨⟨h₁,h₂,h₃⟩,h₄,h₅,h₆,h₇⟩,
      fun ⟨⟨h₁,h₂,h₃⟩,h₄,h₅,h₆,h₇⟩ => ⟨h₁,h₂,h₃,h₄,h₅,h₆,h₇⟩⟩

/-- The bits of all inodes and of all blocks are found, whatever the bitmaps hold, exactly when both
conditions are met. -/
theorem bitmapLookups_iff {g : Globals} {img : Buf} (hl : BitmapLayout g) (hf : g.Fits img) :
    (∀ d : Device, Buf.AgreeOff
      (fun k => g.BitmapByte g.inodeNumbers k ∨ g.BitmapByte g.blockNumbers k) img d.image →
        RightBits g g.inodeNumbers g.getInodeBitmapInPartition getInodeAllocBit d ∧
        RightBits g g.blockNumbers g.getBlockBitmapInPartition getBlockAllocBit d) ↔
      g.inodeNumbers.Flat g.blockSize ∧ g.blockNumbers.Flat g.blockSize := by
  have hs := hl.toBlockSizes
  rw [getInodeBitmapInPartition_eq,getBlockBitmapInPartition_eq]
  constructor
  · intro h
    refine ⟨hl.inodes.flat_of_rightBits hs hl.block_le hl.desc_size (inodeNumbers_names g) hf
      fun d hd => ?_,hl.blocks.flat_of_rightBits hs hl.block_le hl.desc_size (blockNumbers_names g) hf
      fun d hd => ?_⟩
    · exact (h d (hd.mono fun _ => Or.inl)).1
    · exact (h d (hd.mono fun _ => Or.inr)).2
  · rintro ⟨hinodes,hblocks⟩ d hd
    have hfd : g.Fits d.image := by
      unfold Globals.Fits
      rw [← hd.size_eq]
      exact hf
    exact ⟨hl.inodes.rightBits hs hl.block_le hl.desc_size (inodeNumbers_names g) hinodes hfd,
      hl.blocks.rightBits hs hl.block_le hl.desc_size (blockNumbers_names g) hblocks hfd⟩

theorem bitmapLookups_blank :
    ((exampleGlobals 16).inodeNumbers.Flat 1024 ∧ (exampleGlobals 16).blockNumbers.Flat 1024) ∧
    ∀ d : Device, Buf.AgreeOff (fun k =>
      (exampleGlobals 16).BitmapByte (exampleGlobals 16).inodeNumbers k ∨
        (exampleGlobals 16).BitmapByte (exampleGlobals 16).blockNumbers k) blankImage d.image →
      RightBits (exampleGlobals 16) (exampleGlobals 16).inodeNumbers
        (exampleGlobals 16).getInodeBitmapInPartition getInodeAllocBit d ∧
      RightBits (exampleGlobals 16) (exampleGlobals 16).blockNumbers
        (exampleGlobals 16).getBlockBitmapInPartition getBlockAllocBit d := by
  have hflat : (exampleGlobals 16).inodeNumbers.Flat 1024 ∧
      (exampleGlobals 16).blockNumbers.Flat 1024 :=
    ⟨⟨by decide,by decide,by decide,rfl,Or.inr (by decide)⟩,
      ⟨by decide,by decide,by decide,rfl,Or.inl rfl⟩⟩
  exact ⟨hflat,(bitmapLookups_iff (show BitmapLayout (exampleGlobals 16) by decide +kernel)
    (show (exampleGlobals 16).Fits blankImage by decide +kernel)).mpr hflat⟩

/-- Block 40 is allocated in the bitmap of the second of two groups of 24 blocks. It is looked up as
bit 39 of the first. -/
theorem twoGroups_bit_lost :
    BitmapLayout twoGroups ∧ twoGroups.Fits twoGroupsImage ∧
      8 ∣ twoGroups.superBlock.sInodesPerGroup ∧ 8 ∣ twoGroups.superBlock.sBlocksPerGroup ∧
      ¬ RightBits twoGroups twoGroups.blockNumbers twoGroups.getBlockBitmapInPartition
        getBlockAllocBit ⟨twoGroupsImage,[]⟩ := by
  have hlost : endsIn twoGroups.getBlockBitmapInPartition ⟨twoGroupsImage,[]⟩
      (fun bm _ => decide (getBlockAllocBit bm 40 ≠
        some (ofBit (twoGroups.blockNumbers.bit twoGroups twoGroupsImage 40)))) = true := by
    decide +kernel
  refine ⟨by decide +kernel,by decide +kernel,by decide,by decide,?_⟩
  rintro ⟨bm,d',hload,hbits⟩
  have hne := of_endsIn hlost hload
  exact of_decide_eq_true hne (hbits 40 (by decide +kernel) (by decide +kernel))

end MyFsck
