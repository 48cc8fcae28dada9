import MyFsck.Geometry
import MyFsck.Frames

/-! The block bitmap: single bits, the flat array it is loaded into, the two repairing loops of
`pass4` and the write-back. -/
namespace MyFsck

open ByteBuffer ErrorState

/-- Bit `b-1` of an array. -/
def bitAt (bm : Buf) (b : ℕ) : Bool := (bm.byte ((b-1)/8)).getLsbD ((b-1)%8)

/-- A bit as the byte it is compared as. -/
def ofBit (v : Bool) : Byte := if v then 1 else 0

theorem ofBit_inj {v w : Bool} : ofBit v = ofBit w ↔ v = w := by
  cases v <;> cases w <;> decide

theorem shift_and_one (c : Byte) (k : ℕ) : (c >>> k) &&& 1 = ofBit (c.getLsbD k) := by
  have h := BitVec.and_one_eq_setWidth_ofBool_getLsbD (x := c >>> k)
  rw [BitVec.getLsbD_ushiftRight,Nat.add_zero] at h
  refine h.trans ?_
  cases c.getLsbD k <;> rfl

theorem byte_of_bitAt {bm bm' : Buf} (h : ∀ b, 1 ≤ b → bitAt bm b = bitAt bm' b) (k : ℕ) :
    bm.byte k = bm'.byte k := by
  refine BitVec.eq_of_getLsbD_eq fun i hi => ?_
  have hbit := h (8*k+i+1) (by omega)
  rw [bitAt,bitAt,show (8*k+i+1-1)/8 = k by omega,show (8*k+i+1-1)%8 = i by omega] at hbit
  exact hbit

theorem allocBit_eq {bm : Buf} {b : ℕ} (h1 : 1 ≤ b) (h : b < 2^32) (hb : (b-1)/8 < bm.size) :
    allocBit bm b = some (ofBit (bitAt bm b)) := by
  unfold allocBit bitsPerByte
  rw [pred32_eq h1 h,Buf.load_eq hb]
  exact congrArg some (shift_and_one _ _)

theorem getLsbD_flip (c : Byte) {k i : ℕ} (hk : k < 8) (hi : i < 8) :
    (c ^^^ (1#8 <<< k)).getLsbD i = if i = k then !c.getLsbD i else c.getLsbD i := by
  rw [BitVec.getLsbD_xor,BitVec.getLsbD_shiftLeft]
  have hone : (1#8).getLsbD (i-k) = decide (i-k = 0) := by
    simp [BitVec.getLsbD_one]
  by_cases hik : i = k
  · subst hik
    simp [hi]
  · by_cases hlt : i < k
    · simp [hlt,hik]
    · have h₀ : i-k ≠ 0 := by omega
      simp [hone,hlt,hik,h₀]

theorem fixBlockBitmap_eq {bm : Buf} {b : ℕ} (h1 : 1 ≤ b) (h : b < 2^32)
    (hb : (b-1)/8 < bm.size) : ∃ bm', fixBlockBitmapInPartition bm b = some bm' ∧
      bm'.size = bm.size ∧ ∀ c, 1 ≤ c → bitAt bm' c = if c = b then !bitAt bm c else bitAt bm c := by
  unfold fixBlockBitmapInPartition bitsPerByte
  rw [pred32_eq h1 h]
  dsimp only
  rw [Buf.load_eq hb]
  refine ⟨_,Buf.store_eq _ hb,rfl,fun c hc => ?_⟩
  unfold bitAt
  rw [Buf.set_byte]
  by_cases hq : (c-1)/8 = (b-1)/8
  · rw [if_pos ⟨hq,hq ▸ hb⟩,← hq,
      getLsbD_flip _ (Nat.mod_lt _ (by norm_num)) (Nat.mod_lt _ (by norm_num))]
    have hcb : (c-1)%8 = (b-1)%8 ↔ c = b := by omega
    simp only [hcb]
  · have hcb : c ≠ b := by
      rintro rfl
      exact hq rfl
    rw [if_neg (fun h => hq h.1),if_neg hcb]

/-- From the state `s` of a repairing loop to `s'`: the bits of the blocks in `S` are what they should
be, all other bits are as before, and the error flag is down only when nothing was changed. -/
structure Repaired (want : ℕ → Bool) (S : ℕ → Prop) (s s' : Buf × Bool) : Prop where
  size_eq : s'.1.size = s.1.size
  fixed : ∀ b, 1 ≤ b → S b → bitAt s'.1 b = want b
  kept : ∀ b, 1 ≤ b → ¬ S b → bitAt s'.1 b = bitAt s.1 b
  flag : s'.2 = false → s' = s

namespace Repaired

variable {want : ℕ → Bool} {S T : ℕ → Prop} {s s' s'' : Buf × Bool}

theorem refl (h : ∀ b, 1 ≤ b → ¬ S b) : Repaired want S s s :=
  ⟨rfl,fun b hb hS => absurd hS (h b hb),fun _ _ _ => rfl,fun _ => rfl⟩

theorem trans (h : Repaired want S s s') (h' : Repaired want T s' s'') :
    Repaired want (fun b => S b ∨ T b) s s'' where
  size_eq := h'.size_eq.trans h.size_eq
  fixed b hb hS := by
    by_cases hT : T b
    · exact h'.fixed b hb hT
    · rw [h'.kept b hb hT]
      exact h.fixed b hb (hS.resolve_right hT)
  kept b hb hS := by
    simp only [not_or] at hS
    rw [h'.kept b hb hS.2,h.kept b hb hS.1]
  flag hf := by
    have h₁ := h'.flag hf
    rw [h₁] at hf ⊢
    exact h.flag hf

theorem congr (h : Repaired want S s s') (hS : ∀ b, 1 ≤ b → (S b ↔ T b)) :
    Repaired want T s s' where
  size_eq := h.size_eq
  fixed b hb hT := h.fixed b hb ((hS b hb).mpr hT)
  kept b hb hT := h.kept b hb (mt (hS b hb).mp hT)
  flag := h.flag

end Repaired

theorem checkBit_run {s : Buf × Bool} {b : ℕ} (want : ℕ → Bool) (d : Device) (h1 : 1 ≤ b)
    (h : b < 2^32) (hb : (b-1)/8 < s.1.size) : ∃ s' d',
      (checkBit s.1 s.2 b (ofBit (want b)) (ofBit (bitAt s.1 b))).run d = .ok s' d' ∧
      d'.image = d.image ∧ Repaired want (fun c => c = b) s s' := by
  unfold checkBit
  by_cases hne : want b = bitAt s.1 b
  · rw [if_neg (by rw [hne]; simp)]
    refine ⟨s,d,rfl,rfl,rfl,?_,fun _ _ _ => rfl,fun _ => rfl⟩
    rintro c _ rfl
    exact hne.symm
  · rw [if_pos (fun he => hne (ofBit_inj.mp he)),bind_ok (print_run _ d)]
    obtain ⟨bm',hbm,hsize,hbits⟩ := fixBlockBitmap_eq h1 h hb
    rw [hbm,bind_ok (inBounds_some _ _)]
    refine ⟨(bm',true),_,rfl,rfl,hsize,?_,fun c hc hcb => ?_,fun hf => by simp at hf⟩
    · rintro c hc rfl
      rw [hbits c hc,if_pos rfl]
      revert hne
      cases want c <;> cases bitAt s.1 c <;> simp
    · rw [hbits c hc,if_neg hcb]

section Group

variable {g : Globals} {t : Buf} {n : ℕ}

/-- What a marking says about a block. -/
def marked (t : Buf) (b : ℕ) : Bool := t.byte b == 1

theorem Marks.ofBit_marked (h : Marks n t) (b : ℕ) : t.byte b = ofBit (marked t b) := by
  rcases h.zero_or_one b with h | h <;> simp [marked,ofBit,h]

theorem checkGroup_run (ht : Marks (g.superBlock.sBlocksCount+1) t)
    (hcount : g.superBlock.sBlocksCount < 2^32) (turns start : ℕ) (s : Buf × Bool) (d : Device)
    (h1 : 1 ≤ start) (hstart : turns ≠ 0 → start < g.superBlock.sBlocksCount)
    (hs : ∀ b, b < g.superBlock.sBlocksCount → (b-1)/8 < s.1.size) :
    ∃ s' d', (checkGroup g t turns start s).run d =
        .ok (min (start+turns) (max start g.superBlock.sBlocksCount),s') d' ∧ d'.image = d.image ∧
      Repaired (marked t) (fun b => start ≤ b ∧ b < start+turns ∧ b < g.superBlock.sBlocksCount)
        s s' := by
  induction turns generalizing start s d with
  | zero =>
    refine ⟨s,d,?_,rfl,.refl fun b _ => by omega⟩
    rw [checkGroup,EStateM.run_pure]
    congr 2
    omega
  | succ turns ih =>
    have hlt := hstart (by omega)
    rw [checkGroup]
    unfold getBlockAllocBit
    rw [allocBit_eq h1 (by omega) (hs start hlt),bind_ok (inBounds_some _ d),
      Buf.load_eq (by rw [ht.size_eq]; omega),bind_ok (inBounds_some _ d),ht.ofBit_marked]
    obtain ⟨s₁,d₁,hrun,him,hrep⟩ := checkBit_run (marked t) d h1 (by omega) (hs start hlt)
    rw [bind_ok hrun]
    by_cases hend : g.superBlock.sBlocksCount ≤ start+1
    · rw [if_pos hend]
      refine ⟨s₁,d₁,?_,him,hrep.congr fun b hb => by omega⟩
      rw [EStateM.run_pure]
      congr 2
      omega
    · rw [if_neg hend]
      obtain ⟨s₂,d₂,hrun₂,him₂,hrep₂⟩ := ih (start+1) s₁ d₁ (by omega) (by omega)
        (fun b hb => by rw [hrep.size_eq]; exact hs b hb)
      refine ⟨s₂,d₂,?_,him₂.trans him,(hrep.trans hrep₂).congr fun b hb => by omega⟩
      rw [hrun₂]
      congr 2
      omega

end Group

def Globals.blockGroups (g : Globals) : ℕ :=
  (g.superBlock.sBlocksCount+g.superBlock.sBlocksPerGroup-1)/g.superBlock.sBlocksPerGroup

/-- The blocks of a group in front of its data: superblock, group descriptors, the two bitmaps and
the inode table. -/
def Globals.skip (g : Globals) : ℕ := 4+g.tableBlocks

/-- The first block of a group; the groups start behind the boot block. -/
def Globals.groupStart (g : Globals) (a : ℕ) : ℕ := 1+a*g.superBlock.sBlocksPerGroup

theorem groupStart_pos (g : Globals) (a : ℕ) : 1 ≤ g.groupStart a := Nat.le_add_right _ _

theorem groupStart_succ (g : Globals) (a : ℕ) :
    g.groupStart (a+1) = g.groupStart a+g.superBlock.sBlocksPerGroup := by
  simp only [Globals.groupStart]
  ring

/-- An ext2 layout of 1 KiB blocks in which every group starts with its metadata, one block for
each bitmap, and the last group has a block behind them. -/
structure GroupLayout (g : Globals) : Prop where
  block_size : g.blockSize = 1024
  per_group_pos : 0 < g.superBlock.sBlocksPerGroup
  per_group_le : g.superBlock.sBlocksPerGroup ≤ 8192
  inodes_pos : 0 < g.superBlock.sInodesPerGroup
  inodes_le : g.superBlock.sInodesPerGroup ≤ 8192
  groups_eq : g.inodeGroups ≤ g.blockGroups
  desc_size : g.groupDescBlock.size = 1024
  desc_le : g.blockGroups*groupDescSize ≤ 1024
  block_bitmap : ∀ a < g.blockGroups, g.blockBitmap a = g.groupStart a+2
  inode_bitmap : ∀ a < g.blockGroups, g.inodeBitmap a = g.groupStart a+3
  inode_table : ∀ a < g.blockGroups, g.inodeTable a = g.groupStart a+4
  last_group : g.groupStart (g.blockGroups-1)+g.skip < g.superBlock.sBlocksCount

instance (g : Globals) : Decidable (GroupLayout g) :=
  decidable_of_iff (g.blockSize = 1024 ∧ 0 < g.superBlock.sBlocksPerGroup ∧
    g.superBlock.sBlocksPerGroup ≤ 8192 ∧ 0 < g.superBlock.sInodesPerGroup ∧
    g.superBlock.sInodesPerGroup ≤ 8192 ∧ g.inodeGroups ≤ g.blockGroups ∧
    g.groupDescBlock.size = 1024 ∧ g.blockGroups*groupDescSize ≤ 1024 ∧
    (∀ a < g.blockGroups, g.blockBitmap a = g.groupStart a+2) ∧
    (∀ a < g.blockGroups, g.inodeBitmap a = g.groupStart a+3) ∧
    (∀ a < g.blockGroups, g.inodeTable a = g.groupStart a+4) ∧
    g.groupStart (g.blockGroups-1)+g.skip < g.superBlock.sBlocksCount)
    ⟨fun ⟨h₁,h₂,h₃,h₄,h₅,h₆,h₇,h₈,h₉,h₁₀,h₁₁,h₁₂⟩ => ⟨h₁,h₂,h₃,h₄,h₅,h₆,h₇,h₈,h₉,h₁₀,h₁₁,h₁₂⟩,
      fun ⟨h₁,h₂,h₃,h₄,h₅,h₆,h₇,h₈,h₉,h₁₀,h₁₁,h₁₂⟩ => ⟨h₁,h₂,h₃,h₄,h₅,h₆,h₇,h₈,h₉,h₁₀,h₁₁,h₁₂⟩⟩

namespace GroupLayout

variable {g : Globals} (h : GroupLayout g)
include h

theorem blockGroups_pos : 0 < g.blockGroups := by
  have := h.last_group
  have hp := h.per_group_pos
  refine Nat.div_pos ?_ hp
  omega

theorem count_le : g.superBlock.sBlocksCount ≤ g.blockGroups*g.superBlock.sBlocksPerGroup :=
  le_roundUp h.per_group_pos

theorem count_lt : g.superBlock.sBlocksCount < 2^20 := by
  have h₁ := h.count_le
  have h₂ := h.desc_le
  simp only [groupDescSize] at h₂
  have h₃ : g.blockGroups ≤ 32 := by omega
  have h₄ : g.blockGroups*g.superBlock.sBlocksPerGroup ≤ 32*8192 := Nat.mul_le_mul h₃ h.per_group_le
  omega

theorem skip_lt : g.skip+1 < g.superBlock.sBlocksPerGroup := by
  have h₁ := h.last_group
  have h₂ := h.count_le
  have h₃ := h.blockGroups_pos
  obtain ⟨n,hn⟩ : ∃ n, g.blockGroups = n+1 := ⟨g.blockGroups-1,by omega⟩
  simp only [hn,Nat.add_sub_cancel,Globals.groupStart] at h₁ h₂
  rw [Nat.succ_mul] at h₂
  omega

theorem groupStart_lt {a : ℕ} (ha : a < g.blockGroups) :
    g.groupStart a+g.skip < g.superBlock.sBlocksCount := by
  have h₁ := h.last_group
  have h₂ : a*g.superBlock.sBlocksPerGroup ≤ (g.blockGroups-1)*g.superBlock.sBlocksPerGroup :=
    Nat.mul_le_mul_right _ (by omega)
  simp only [Globals.groupStart] at h₁ ⊢
  omega

theorem geometry : Geometry g where
  block_pos := by rw [h.block_size]; norm_num
  sector_dvd := by rw [h.block_size]; decide
  sectors_lt := by
    have := h.count_lt
    rw [h.block_size]
    simp only [sectorSizeBytes]
    omega
  group_pos := h.inodes_pos
  table_le := by
    have := h.inodes_le
    rw [h.block_size]
    simp only [inodeSize]
    omega
  inodes_le := by
    have h₁ := h.groups_eq
    have h₂ := h.desc_le
    have h₃ := h.inodes_le
    have h₄ := h.inodes_pos
    simp only [groupDescSize] at h₂
    have h₅ := Nat.div_add_mod (g.superBlock.sInodesCount+g.superBlock.sInodesPerGroup-1)
      g.superBlock.sInodesPerGroup
    have h₆ := Nat.mod_lt (g.superBlock.sInodesCount+g.superBlock.sInodesPerGroup-1) h₄
    have h₇ : g.superBlock.sInodesPerGroup*g.inodeGroups ≤ 8192*32 := Nat.mul_le_mul h₃ (by omega)
    simp only [Globals.inodeGroups] at h₇
    omega
  desc_size := by rw [h.desc_size,h.block_size]
  desc_le := by
    have h₁ := h.groups_eq
    have h₂ := h.desc_le
    simp only [groupDescSize] at h₂ ⊢
    rw [h.block_size]
    omega
  desc_lt := by
    have h₁ := h.groups_eq
    have h₂ := h.desc_le
    simp only [groupDescSize] at h₂ ⊢
    omega
  table_in a ha := by
    have ha' := ha.trans_le h.groups_eq
    have h₁ := h.groupStart_lt ha'
    rw [h.inode_table a ha']
    simp only [Globals.skip] at h₁
    omega
  tables_disjoint a ha b hb hab := by
    have ha' := ha.trans_le h.groups_eq
    have hb' := hb.trans_le h.groups_eq
    rw [h.inode_table a ha',h.inode_table b hb']
    have hs := h.skip_lt
    simp only [Globals.skip] at hs
    simp only [Globals.groupStart]
    rcases Nat.lt_or_gt_of_ne hab with hlt | hlt
    · have h₁ := Nat.mul_le_mul_right g.superBlock.sBlocksPerGroup hlt
      rw [Nat.succ_mul] at h₁
      omega
    · have h₁ := Nat.mul_le_mul_right g.superBlock.sBlocksPerGroup hlt
      rw [Nat.succ_mul] at h₁
      omega

theorem getBlockGroupNum_eq : g.getBlockGroupNum = g.blockGroups := by
  have h₁ := h.count_lt
  have h₂ := h.per_group_pos
  have h₃ := h.per_group_le
  have he : u32 (g.superBlock.sBlocksCount+g.superBlock.sBlocksPerGroup+(2^32-1)) =
      g.superBlock.sBlocksCount+g.superBlock.sBlocksPerGroup-1 := by
    unfold u32
    omega
  rw [Globals.getBlockGroupNum,he,Globals.blockGroups]

theorem bitmapBlocks_eq {n : ℕ} (h1 : 0 < n) (hn : n ≤ 8192) :
    u32 (u32 (n+bitsPerByte+(2^32-1))/bitsPerByte+g.blockSize+(2^32-1))/g.blockSize = 1 := by
  rw [h.block_size]
  simp only [u32,bitsPerByte]
  omega

theorem getGroupBlockBitmapBlockNum_eq : g.getGroupBlockBitmapBlockNum = 1 :=
  h.bitmapBlocks_eq h.per_group_pos h.per_group_le

theorem getGroupInodeBitmapBlockNum_eq : g.getGroupInodeBitmapBlockNum = 1 :=
  h.bitmapBlocks_eq h.inodes_pos h.inodes_le

theorem getSkipBlockNumInGroup_eq : getSkipBlockNumInGroup g = g.skip := by
  rw [getSkipBlockNumInGroup,h.getGroupBlockBitmapBlockNum_eq,h.getGroupInodeBitmapBlockNum_eq,
    h.geometry.tables.tableBlocks_eq,Globals.skip]

theorem desc_in {a : ℕ} (ha : a < g.blockGroups) :
    a*groupDescSize+groupDescSize ≤ g.groupDescBlock.size ∧ a*groupDescSize < 2^32 := by
  have h₁ := h.desc_le
  have h₂ : (a+1)*groupDescSize ≤ g.blockGroups*groupDescSize := Nat.mul_le_mul_right _ ha
  rw [h.desc_size]
  simp only [groupDescSize] at h₁ h₂ ⊢
  omega

theorem groupDesc_run (d : Device) {a : ℕ} (ha : a < g.blockGroups) :
    ∃ gd, (readGroupDesc g a).run d = .ok gd d ∧ gd.bgBlockBitmap = g.groupStart a+2 ∧
      gd.bgInodeBitmap = g.groupStart a+3 ∧ gd.bgInodeTable = g.groupStart a+4 := by
  obtain ⟨gd,hgd,hb,hi,ht⟩ := readGroupDesc_run (g := g) d a (h.desc_in ha).1 (h.desc_in ha).2
  exact ⟨gd,hgd,hb.trans (h.block_bitmap a ha),hi.trans (h.inode_bitmap a ha),
    ht.trans (h.inode_table a ha)⟩

end GroupLayout

section Passes

variable {g : Globals} {t : Buf}

/-- The blocks compared by the first loop: those behind the metadata of their group. -/
def Globals.dataBlock (g : Globals) (b : ℕ) : Prop :=
  1 ≤ b ∧ b < g.superBlock.sBlocksCount ∧ g.skip ≤ (b-1)%g.superBlock.sBlocksPerGroup

/-- The blocks of the inode tables. -/
def Globals.tableBlock (g : Globals) (b : ℕ) : Prop :=
  ∃ a < g.blockGroups, g.groupStart a+4 ≤ b ∧ b < g.groupStart a+4+g.tableBlocks

instance (b : ℕ) : Decidable (g.dataBlock b) := inferInstanceAs (Decidable (_ ∧ _))
instance (b : ℕ) : Decidable (g.tableBlock b) := inferInstanceAs (Decidable (∃ a < _, _))

theorem mod_group (bpg a : ℕ) {b : ℕ} (h : 1+a*bpg ≤ b) (h' : b < 1+(a+1)*bpg) :
    (b-1)%bpg = b-1-a*bpg := by
  rw [Nat.succ_mul] at h'
  obtain ⟨r,hr⟩ := Nat.exists_eq_add_of_le h
  have hb : b-1 = r+a*bpg := by omega
  rw [hb,Nat.add_mul_mod_self_right,Nat.mod_eq_of_lt (by omega)]
  omega

theorem GroupLayout.tableBlock_place (hl : GroupLayout g) {b : ℕ} (h : g.tableBlock b) :
    4 ≤ (b-1)%g.superBlock.sBlocksPerGroup ∧ (b-1)%g.superBlock.sBlocksPerGroup < g.skip := by
  obtain ⟨a,_,h₁,h₂⟩ := h
  have hskip := hl.skip_lt
  simp only [Globals.skip,Globals.groupStart] at h₁ h₂ hskip ⊢
  rw [mod_group g.superBlock.sBlocksPerGroup a (by omega) (by rw [Nat.succ_mul]; omega)]
  omega

theorem GroupLayout.tableBlock_lt (hl : GroupLayout g) {b : ℕ} (h : g.tableBlock b) :
    1 ≤ b ∧ b < g.superBlock.sBlocksCount := by
  obtain ⟨a,ha,h₁,h₂⟩ := h
  have hlt := hl.groupStart_lt ha
  simp only [Globals.skip] at hlt
  omega

theorem checkGroups_run (hl : GroupLayout g) (ht : Marks (g.superBlock.sBlocksCount+1) t)
    (n a : ℕ) (ha : a+n = g.blockGroups) (s : Buf × Bool) (d : Device)
    (hs : ∀ b, b < g.superBlock.sBlocksCount → (b-1)/8 < s.1.size) :
    ∃ s' d', (checkGroups g t n (min (g.groupStart a) g.superBlock.sBlocksCount) s).run d =
      .ok s' d' ∧ d'.image = d.image ∧
      Repaired (marked t) (fun b => g.groupStart a ≤ b ∧ g.dataBlock b) s s' := by
  have hcount := hl.count_lt
  have hskip := hl.skip_lt
  induction n generalizing a s d with
  | zero =>
    refine ⟨s,d,rfl,rfl,.refl fun b _ hb => ?_⟩
    have h₁ := hl.count_le
    have h₂ := hb.2.2.1
    have h₃ := hb.1
    simp only [Nat.add_zero] at ha
    simp only [ha,Globals.groupStart] at h₃
    omega
  | succ n ih =>
    have hlt := hl.groupStart_lt (a := a) (by omega)
    have hpos := groupStart_pos g a
    rw [checkGroups,Nat.min_eq_left (by omega),hl.getSkipBlockNumInGroup_eq,u32_eq (by omega)]
    obtain ⟨s₁,d₁,hrun,him,hrep⟩ := checkGroup_run ht (by omega)
      (g.superBlock.sBlocksPerGroup-g.skip) (g.groupStart a+g.skip) s d (by omega) (fun _ => hlt) hs
    have hnext : min (g.groupStart a+g.skip+(g.superBlock.sBlocksPerGroup-g.skip))
        (max (g.groupStart a+g.skip) g.superBlock.sBlocksCount) =
        min (g.groupStart (a+1)) g.superBlock.sBlocksCount := by
      rw [groupStart_succ]
      omega
    rw [hnext] at hrun
    rw [bind_ok hrun]
    obtain ⟨s₂,d₂,hrun₂,him₂,hrep₂⟩ := ih (a+1) (by omega) s₁ d₁
      (fun b hb => by rw [hrep.size_eq]; exact hs b hb)
    refine ⟨s₂,d₂,hrun₂,him₂.trans him,(hrep.trans hrep₂).congr fun b hb => ?_⟩
    rw [groupStart_succ]
    by_cases hin : g.groupStart a ≤ b ∧ b < g.groupStart a+g.superBlock.sBlocksPerGroup
    · have hm := mod_group g.superBlock.sBlocksPerGroup a hin.1
        (by have h₁ := groupStart_succ g a; simp only [Globals.groupStart] at h₁ hin; omega)
      simp only [Globals.dataBlock,hm]
      simp only [Globals.groupStart] at hin ⊢
      omega
    · simp only [Globals.dataBlock]
      omega

theorem checkTable_run (n start : ℕ) (s : Buf × Bool) (d : Device) (h1 : 1 ≤ start)
    (hend : start+n ≤ 2^32) (hs : ∀ b, b < start+n → (b-1)/8 < s.1.size) :
    ∃ s' d', ((List.range n).foldlM (fun (s : Buf × Bool) j => do
        let block_id := u32 (start+j)
        let alloc_bit ← inBounds (getBlockAllocBit s.1 block_id)
        checkBit s.1 s.2 block_id 1 alloc_bit) s).run d = .ok s' d' ∧ d'.image = d.image ∧
      Repaired (fun _ => true) (fun b => start ≤ b ∧ b < start+n) s s' := by
  induction n with
  | zero => exact ⟨s,d,rfl,rfl,.refl fun b _ => by omega⟩
  | succ n ih =>
    obtain ⟨s₁,d₁,hrun,him,hrep⟩ := ih (by omega) fun b hb => hs b (by omega)
    have hb : (start+n-1)/8 < s₁.1.size := by
      rw [hrep.size_eq]
      exact hs _ (by omega)
    obtain ⟨s₂,d₂,hrun₂,him₂,hrep₂⟩ := checkBit_run (fun _ => true) d₁ (b := start+n) (by omega)
      (by omega) hb
    refine ⟨s₂,d₂,?_,him₂.trans him,(hrep.trans hrep₂).congr fun b _ => by omega⟩
    rw [List.range_succ,List.foldlM_append,bind_ok hrun,List.foldlM_cons,u32_eq (by omega)]
    dsimp only
    unfold getBlockAllocBit
    rw [allocBit_eq (by omega) (by omega) hb]
    simp only [EStateM.run_bind,inBounds_some]
    have hone : checkBit s₁.1 s₁.2 (start+n) 1 (ofBit (bitAt s₁.1 (start+n))) =
        checkBit s₁.1 s₁.2 (start+n) (ofBit true) (ofBit (bitAt s₁.1 (start+n))) := rfl
    rw [hone,hrun₂]
    rfl

theorem checkInodeTables_run (hl : GroupLayout g) (s : Buf × Bool) (d : Device)
    (hs : ∀ b, b < g.superBlock.sBlocksCount → (b-1)/8 < s.1.size) :
    ∃ s' d', (checkInodeTables g s).run d = .ok s' d' ∧ d'.image = d.image ∧
      Repaired (fun _ => true) g.tableBlock s s' := by
  unfold checkInodeTables
  rw [hl.getBlockGroupNum_eq,hl.geometry.tables.tableBlocks_eq]
  have key : ∀ n ≤ g.blockGroups, ∃ s' d', ((List.range n).foldlM (fun (s : Buf × Bool) i => do
      let group_desc ← readGroupDesc g i
      (List.range g.tableBlocks).foldlM (fun s j => do
        let block_id := u32 (group_desc.bgInodeTable+j)
        let alloc_bit ← inBounds (getBlockAllocBit s.1 block_id)
        checkBit s.1 s.2 block_id 1 alloc_bit) s) s).run d = .ok s' d' ∧ d'.image = d.image ∧
      Repaired (fun _ => true) (fun b => ∃ a < n, g.groupStart a+4 ≤ b ∧
        b < g.groupStart a+4+g.tableBlocks) s s' := by
    intro n
    induction n with
    | zero => exact fun _ => ⟨s,d,rfl,rfl,.refl fun b _ => by simp⟩
    | succ n ih =>
      intro hn
      obtain ⟨s₁,d₁,hrun,him,hrep⟩ := ih (by omega)
      obtain ⟨gd,hgd,_,_,htab⟩ := hl.groupDesc_run d₁ hn
      have hlt := hl.groupStart_lt hn
      have hcount := hl.count_lt
      simp only [Globals.skip] at hlt
      obtain ⟨s₂,d₂,hrun₂,him₂,hrep₂⟩ := checkTable_run g.tableBlocks (g.groupStart n+4) s₁ d₁
        (by omega) (by omega) fun b hb => by
          rw [hrep.size_eq]
          exact hs b (by omega)
      refine ⟨s₂,d₂,?_,him₂.trans him,(hrep.trans hrep₂).congr fun b _ => ?_⟩
      · rw [List.range_succ,List.foldlM_append,bind_ok hrun,List.foldlM_cons]
        simp only [EStateM.run_bind,hgd,htab,hrun₂]
        rfl
      · simp only [Nat.lt_succ_iff_lt_or_eq,or_and_right,exists_or,exists_eq_left]
  exact key g.blockGroups le_rfl

end Passes

/-- The block of the bitmap of a group, and the byte of the image at which it starts. -/
def Globals.bitmapHome (g : Globals) (group : ℕ) : ℕ :=
  match g.groupDesc group with
  | some gd => u32 gd.bgBlockBitmap
  | none => 0

def Globals.bitmapOffset (g : Globals) (group : ℕ) : ℕ := g.areaOffset (g.bitmapHome group)

theorem groupDesc_eq {g : Globals} {a : ℕ} (h : a*groupDescSize+groupDescSize ≤ g.groupDescBlock.size)
    (h32 : a*groupDescSize < 2^32) :
    ∃ gd, g.groupDesc a = some gd ∧ gd.bgBlockBitmap = g.blockBitmap a := by
  obtain ⟨gd,hgd,hb,-⟩ := readGroupDesc_run (g := g) ⟨Buf.zero 0,[]⟩ a h h32
  exact ⟨gd,inBounds_ok hgd,hb⟩

theorem bitmapHome_eq {g : Globals} {a : ℕ} (h : a*groupDescSize+groupDescSize ≤ g.groupDescBlock.size)
    (h32 : a*groupDescSize < 2^32) : g.bitmapHome a = u32 (g.blockBitmap a) := by
  obtain ⟨gd,hgd,hb⟩ := groupDesc_eq h h32
  rw [Globals.bitmapHome,hgd,← hb]

/-- There are `n` groups with descriptors, and one block is enough for the bitmap of each. -/
structure OneBlockBitmaps (g : Globals) (n : ℕ) : Prop where
  sector_dvd : sectorSizeBytes ∣ g.blockSize
  group_num : g.getBlockGroupNum = n
  block_num : g.getGroupBlockBitmapBlockNum = 1
  size_lt : n*g.blockSize < 2^32
  desc : ∀ a < n, ∃ gd, g.groupDesc a = some gd

section LoadStore

variable {g : Globals} {n : ℕ} (hb : OneBlockBitmaps g n)

include hb

theorem OneBlockBitmaps.readGroupDesc_run {a : ℕ} (ha : a < n) (d : Device) :
    ∃ gd, (readGroupDesc g a).run d = .ok gd d ∧ u32 gd.bgBlockBitmap = g.bitmapHome a := by
  obtain ⟨gd,hgd⟩ := hb.desc a ha
  refine ⟨gd,?_,?_⟩
  · unfold readGroupDesc
    rw [show decodeGroupDesc g.groupDescBlock (u32 (a*groupDescSize)) = some gd from hgd]
    rfl
  · rw [Globals.bitmapHome,hgd]

theorem OneBlockBitmaps.pos_eq {a : ℕ} (ha : a < n) : u32 (a*1*g.blockSize) = a*g.blockSize := by
  have hlt := hb.size_lt
  have hle := Nat.mul_le_mul_right g.blockSize ha.le
  rw [Nat.mul_one,u32_eq (by omega)]

theorem OneBlockBitmaps.load_run {d : Device}
    (hin : ∀ a < n, g.bitmapOffset a+g.blockSize ≤ d.image.size) :
    g.getBlockBitmapInPartition.run d = .ok (d.image.gather g.bitmapOffset g.blockSize n) d := by
  have hlt := hb.size_lt
  unfold Globals.getBlockBitmapInPartition
  rw [hb.group_num,hb.block_num]
  dsimp only
  rw [show u32 (n*1*g.blockSize) = n*g.blockSize by rw [Nat.mul_one,u32_eq hlt]]
  refine overlayLoop_run (fun _ _ => rfl) (fun a ha => hb.pos_eq ha) fun a ha => ?_
  obtain ⟨gd,hgd,hhome⟩ := hb.readGroupDesc_run ha d
  have hread : (g.block (u32 (gd.bgBlockBitmap+0))).run d =
      .ok (d.image.slice (g.bitmapOffset a) g.blockSize) d := by
    rw [Nat.add_zero,hhome]
    exact block_area_run hb.sector_dvd (hin a ha)
  unfold Globals.getBlockBitmapInGroup
  rw [bind_ok hgd]
  have hone := @overlayLoop_run d g.blockSize 1 (fun _ => d.image.slice (g.bitmapOffset a) g.blockSize)
    (fun i => g.block (u32 (gd.bgBlockBitmap+i))) (fun i => g.blockSize*i) (fun _ _ => rfl)
    (fun i _ => Nat.mul_comm _ _) fun i hi => by rw [Nat.lt_one_iff.mp hi]; exact hread
  rwa [Buf.concat_one (Buf.slice_size d.image (g.bitmapOffset a) g.blockSize)] at hone

theorem OneBlockBitmaps.store_run {bm : Buf} (hs : bm.size = n*g.blockSize) (d : Device) :
    ∃ d', (g.writeBlockBitmapInPartition bm).run d = .ok () d' ∧
      d'.image = d.image.scatter g.bitmapOffset g.blockSize bm n := by
  unfold Globals.writeBlockBitmapInPartition
  rw [hb.group_num,hb.block_num]
  dsimp only
  suffices key : ∀ m ≤ n, ∃ d', ((List.range m).foldlM (fun (_ : Unit) a =>
      g.writeBlockBitmapInGroup bm (u32 (a*1*g.blockSize)) a 1) ()).run d = .ok () d' ∧
      d'.image = d.image.scatter g.bitmapOffset g.blockSize bm m from key n le_rfl
  intro m
  induction m with
  | zero => exact fun _ => ⟨d,rfl,rfl⟩
  | succ m ih =>
    intro hm
    obtain ⟨d₁,hrun,him⟩ := ih (by omega)
    obtain ⟨gd,hgd,hhome⟩ := hb.readGroupDesc_run hm d₁
    have hfit : m*g.blockSize+g.blockSize ≤ bm.size := by
      have hle := Nat.mul_le_mul_right g.blockSize hm
      rwa [Nat.succ_mul,← hs] at hle
    have hw := write_area_run hb.sector_dvd (d := d₁) (b := g.bitmapHome m) hfit
    refine ⟨⟨d₁.image.patch (g.bitmapOffset m) (bm.slice (m*g.blockSize) g.blockSize),
      d₁.out ++ writeEvents g (g.bitmapHome m)⟩,?_,?_⟩
    · rw [List.range_succ,List.foldlM_append,bind_ok hrun,List.foldlM_cons,hb.pos_eq hm]
      unfold Globals.writeBlockBitmapInGroup
      rw [List.range_one]
      simp only [EStateM.run_bind,hgd,List.foldlM_cons,List.foldlM_nil,Nat.zero_mul,Nat.add_zero,hhome,hw]
      rfl
    · rw [Buf.scatter_succ,← him]

end LoadStore

section Disk

variable {g : Globals} {img : Buf}

/-- The bitmap blocks of all groups one behind the other. -/
def Globals.flatBitmap (g : Globals) (img : Buf) : Buf :=
  Buf.concat g.blockSize g.blockGroups fun a => g.blockAt img (g.blockBitmap a)

/-- The image with the bitmap blocks of the first `n` groups taken from a flat array. -/
def Globals.storeBitmap (g : Globals) (bm img : Buf) (n : ℕ) : Buf :=
  (List.range n).foldl (fun img a =>
    g.setBlock img (g.blockBitmap a) (bm.slice (a*g.blockSize) g.blockSize)) img

/-- The bit of block `b` on the disk: each group has its own bitmap. -/
def Globals.diskBit (g : Globals) (img : Buf) (b : ℕ) : Bool :=
  bitAt (g.blockAt img (g.blockBitmap ((b-1)/g.superBlock.sBlocksPerGroup)))
    ((b-1)%g.superBlock.sBlocksPerGroup+1)

theorem blocksAt_one (start : ℕ) : g.blocksAt img start 1 = g.blockAt img start :=
  Buf.concat_one rfl

theorem GroupLayout.bitmap_lt (hl : GroupLayout g) {a : ℕ} (ha : a < g.blockGroups) :
    1 ≤ g.blockBitmap a ∧ g.blockBitmap a < g.superBlock.sBlocksCount := by
  have h₁ := hl.groupStart_lt ha
  rw [hl.block_bitmap a ha]
  simp only [Globals.skip] at h₁
  omega

theorem GroupLayout.bitmap_inj (hl : GroupLayout g) {a b : ℕ} (ha : a < g.blockGroups)
    (hb : b < g.blockGroups) (h : g.blockBitmap a = g.blockBitmap b) : a = b := by
  rw [hl.block_bitmap a ha,hl.block_bitmap b hb] at h
  simp only [Globals.groupStart] at h
  exact Nat.eq_of_mul_eq_mul_right hl.per_group_pos (by omega)

theorem GroupLayout.oneBlockBitmaps (hl : GroupLayout g) : OneBlockBitmaps g g.blockGroups where
  sector_dvd := hl.geometry.sector_dvd
  group_num := hl.getBlockGroupNum_eq
  block_num := hl.getGroupBlockBitmapBlockNum_eq
  size_lt := by
    have hdesc := hl.desc_le
    simp only [groupDescSize] at hdesc
    rw [hl.block_size]
    omega
  desc a ha := by
    obtain ⟨gd,hgd,-⟩ := groupDesc_eq (hl.desc_in ha).1 (hl.desc_in ha).2
    exact ⟨gd,hgd⟩

theorem GroupLayout.bitmapOffset_eq (hl : GroupLayout g) {a : ℕ} (ha : a < g.blockGroups) :
    g.bitmapOffset a = g.blockOffset (g.blockBitmap a) := by
  have hlt := (hl.bitmap_lt ha).2
  have hcount := hl.count_lt
  rw [Globals.bitmapOffset,bitmapHome_eq (hl.desc_in ha).1 (hl.desc_in ha).2,u32_eq (by omega)]
  exact hl.geometry.sizes.areaOffset_eq hlt.le

theorem getBlockBitmapInPartition_run (hl : GroupLayout g) {d : Device} (hf : g.Fits d.image) :
    (g.getBlockBitmapInPartition).run d = .ok (g.flatBitmap d.image) d := by
  have hrun := hl.oneBlockBitmaps.load_run (d := d) fun a ha => by
    rw [hl.bitmapOffset_eq ha]
    exact hl.geometry.sizes.offset_in hf (hl.bitmap_lt ha).2
  rw [hrun,Buf.gather,Buf.concat_congr fun a ha => by rw [hl.bitmapOffset_eq ha]]
  rfl

theorem writeBlockBitmap_run (hl : GroupLayout g) {bm : Buf} (hs : bm.size = g.blockGroups*g.blockSize)
    (d : Device) : ∃ d', (g.writeBlockBitmapInPartition bm).run d = .ok () d' ∧
      d'.image = g.storeBitmap bm d.image g.blockGroups := by
  obtain ⟨d',hrun,him⟩ := hl.oneBlockBitmaps.store_run hs d
  refine ⟨d',hrun,him.trans ?_⟩
  rw [Buf.scatter_congr fun a ha => hl.bitmapOffset_eq ha]
  rfl

theorem GroupLayout.bitmaps_apart (hl : GroupLayout g) {n : ℕ} (hn : n ≤ g.blockGroups) :
    Buf.ChunksApart (fun a => g.blockOffset (g.blockBitmap a)) g.blockSize n := by
  intro a ha b hb hne
  refine hl.geometry.sizes.blocks_disjoint fun heq => hne ?_
  exact hl.bitmap_inj (by omega) (by omega) heq

theorem blockAt_storeBitmap (hl : GroupLayout g) {bm : Buf} {n a : ℕ} (hn : n ≤ g.blockGroups)
    (ha : a < n) : g.blockAt (g.storeBitmap bm img n) (g.blockBitmap a) =
      bm.slice (a*g.blockSize) g.blockSize :=
  Buf.slice_scatter (hl.bitmaps_apart hn) ha

theorem flatBitmap_slice {a : ℕ} (ha : a < g.blockGroups) :
    (g.flatBitmap img).slice (a*g.blockSize) g.blockSize = g.blockAt img (g.blockBitmap a) :=
  Buf.concat_slice ha rfl

theorem storeBitmap_flatBitmap (hl : GroupLayout g) (hf : g.Fits img) :
    g.storeBitmap (g.flatBitmap img) img g.blockGroups = img :=
  Buf.scatter_gather fun _ ha => hl.geometry.sizes.offset_in hf (hl.bitmap_lt ha).2

theorem storeBitmap_congr {bm bm' : Buf} (h : ∀ b, 1 ≤ b → bitAt bm b = bitAt bm' b) (n : ℕ) :
    g.storeBitmap bm img n = g.storeBitmap bm' img n := by
  refine List.foldl_ext _ _ _ fun img a _ => ?_
  rw [Buf.slice,Buf.slice]
  simp only [byte_of_bitAt h]

theorem GroupLayout.group_lt (hl : GroupLayout g) {b : ℕ} (h1 : 1 ≤ b)
    (hb : b < g.superBlock.sBlocksCount) : (b-1)/g.superBlock.sBlocksPerGroup < g.blockGroups := by
  rw [Nat.div_lt_iff_lt_mul hl.per_group_pos]
  have := hl.count_le
  omega

theorem bitAt_flat (hl : GroupLayout g)
    (hflat : g.superBlock.sBlocksPerGroup = 8192 ∨ g.blockGroups = 1) {b : ℕ} (h1 : 1 ≤ b)
    (hb : b < g.superBlock.sBlocksCount) {bm : Buf} :
    bitAt (bm.slice ((b-1)/g.superBlock.sBlocksPerGroup*g.blockSize) g.blockSize)
      ((b-1)%g.superBlock.sBlocksPerGroup+1) = bitAt bm b := by
  have hlt := hl.group_lt h1 hb
  have hle := hl.per_group_le
  have hmod := Nat.mod_lt (b-1) hl.per_group_pos
  have hdiv := Nat.div_add_mod (b-1) g.superBlock.sBlocksPerGroup
  unfold bitAt
  rw [hl.block_size,Nat.add_sub_cancel,Buf.slice_byte _ (by omega)]
  rcases hflat with h | h
  · rw [h] at hdiv ⊢
    have h₁ : (b-1)/8192*1024+(b-1)%8192/8 = (b-1)/8 := by omega
    have h₂ : (b-1)%8192%8 = (b-1)%8 := by omega
    rw [h₁,h₂]
  · have h₀ : (b-1)/g.superBlock.sBlocksPerGroup = 0 := by
      rw [h] at hlt
      exact Nat.lt_one_iff.mp hlt
    rw [h₀] at hdiv ⊢
    have h₁ : (b-1)%g.superBlock.sBlocksPerGroup = b-1 := by omega
    rw [h₁,Nat.zero_mul,Nat.zero_add]

theorem diskBit_storeBitmap (hl : GroupLayout g)
    (hflat : g.superBlock.sBlocksPerGroup = 8192 ∨ g.blockGroups = 1) {b : ℕ} (h1 : 1 ≤ b)
    (hb : b < g.superBlock.sBlocksCount) {bm : Buf} :
    g.diskBit (g.storeBitmap bm img g.blockGroups) b = bitAt bm b := by
  rw [Globals.diskBit,blockAt_storeBitmap hl le_rfl (hl.group_lt h1 hb)]
  exact bitAt_flat hl hflat h1 hb

theorem bitAt_flatBitmap (hl : GroupLayout g)
    (hflat : g.superBlock.sBlocksPerGroup = 8192 ∨ g.blockGroups = 1) {b : ℕ} (h1 : 1 ≤ b)
    (hb : b < g.superBlock.sBlocksCount) : bitAt (g.flatBitmap img) b = g.diskBit img b := by
  rw [← bitAt_flat hl hflat h1 hb,flatBitmap_slice (hl.group_lt h1 hb),Globals.diskBit]

end Disk

/-- What `pass4` stores: a flat array in which the blocks behind the metadata of their group have the
bit of the marking, the inode tables have theirs set, and all other bits are as on the disk. -/
theorem pass4_run {g : Globals} (hl : GroupLayout g) {d d₁ : Device} (hf : g.Fits d.image)
    {fuel : ℕ} {t : Buf}
    (hw : (getTrueBlockBitmap g fuel (calloc (g.superBlock.sBlocksCount+1)) rootInodeNum).run d =
      .ok t d₁) :
    ∃ d' bm, (pass4 g fuel).run d = .ok () d' ∧
      d'.image = g.storeBitmap bm d.image g.blockGroups ∧
      ∀ b, 1 ≤ b → bitAt bm b = if g.tableBlock b then true else if g.dataBlock b then marked t b else
        bitAt (g.flatBitmap d.image) b := by
  have hcount := hl.count_lt
  have hm := @getTrueBlockBitmap_marking _ _ g d.image fuel rootInodeNum d
    ⟨rfl,Marks.calloc (g.superBlock.sBlocksCount+1)⟩
  rw [hw,u32_eq (by omega)] at hm
  obtain ⟨him,ht⟩ := hm
  have hsize : ∀ b, b < g.superBlock.sBlocksCount → (b-1)/8 < (g.flatBitmap d.image).size := by
    intro b hb
    have h₁ := hl.count_le
    have h₂ := Nat.mul_le_mul_left g.blockGroups hl.per_group_le
    have h₃ : (g.flatBitmap d.image).size = g.blockGroups*g.blockSize := rfl
    rw [h₃,hl.block_size]
    omega
  obtain ⟨s₂,d₂,hrun₂,him₂,hrep₂⟩ := checkGroups_run hl ht g.blockGroups 0 (by omega)
    (g.flatBitmap d.image,false) d₁ hsize
  obtain ⟨s₃,d₃,hrun₃,him₃,hrep₃⟩ := checkInodeTables_run hl s₂ d₂ fun b hb => by
    rw [hrep₂.size_eq]
    exact hsize b hb
  have hstart : min (g.groupStart 0) g.superBlock.sBlocksCount = 1 := by
    have h₁ := hl.groupStart_lt hl.blockGroups_pos
    simp only [Globals.groupStart,Nat.zero_mul,Nat.add_zero] at h₁ ⊢
    omega
  rw [hstart] at hrun₂
  have hbits : ∀ b, 1 ≤ b → bitAt s₃.1 b = if g.tableBlock b then true else if g.dataBlock b then
      marked t b else bitAt (g.flatBitmap d.image) b := by
    intro b hb
    split
    · exact hrep₃.fixed b hb ‹_›
    · rw [hrep₃.kept b hb ‹_›]
      have h₀ : g.groupStart 0 ≤ b := by simpa [Globals.groupStart] using hb
      split
      · exact hrep₂.fixed b hb ⟨h₀,‹_›⟩
      · exact hrep₂.kept b hb fun h => absurd h.2 ‹_›
  unfold pass4
  rw [checkDivisor_pos hl.per_group_pos,pure_bind,bind_ok (getBlockBitmapInPartition_run hl hf)]
  dsimp only
  rw [bind_ok hw,hl.getBlockGroupNum_eq,bind_ok hrun₂,bind_ok hrun₃]
  have him' : d₃.image = d.image := him₃.trans (him₂.trans him)
  by_cases hflag : s₃.2 = true
  · rw [if_pos hflag]
    have hsize₃ : s₃.1.size = g.blockGroups*g.blockSize := hrep₃.size_eq.trans hrep₂.size_eq
    obtain ⟨d₄,hrun₄,him₄⟩ := writeBlockBitmap_run hl hsize₃ d₃
    exact ⟨d₄,s₃.1,hrun₄,him'.symm ▸ him₄,hbits⟩
  · rw [if_neg hflag]
    have h₃ := hrep₃.flag (by simpa using hflag)
    have h₂ := hrep₂.flag (by rw [← h₃]; simpa using hflag)
    refine ⟨d₃,s₃.1,rfl,?_,hbits⟩
    rw [him',h₃,h₂]
    exact (storeBitmap_flatBitmap hl hf).symm

/-- `pass4` makes the bit of every inode table block 1 and the bit of every block behind the metadata
of its group what the walk from the root says; the four blocks in front of the inode table of each
group keep the bits they have. -/
theorem pass4_bits {g : Globals} (hl : GroupLayout g)
    (hflat : g.superBlock.sBlocksPerGroup = 8192 ∨ g.blockGroups = 1) {d d₁ : Device}
    (hf : g.Fits d.image) {fuel : ℕ} {t : Buf}
    (hw : (getTrueBlockBitmap g fuel (calloc (g.superBlock.sBlocksCount+1)) rootInodeNum).run d =
      .ok t d₁) :
    ∃ d', (pass4 g fuel).run d = .ok () d' ∧ ∀ b, 1 ≤ b → b < g.superBlock.sBlocksCount →
      (g.tableBlock b → g.diskBit d'.image b = true) ∧
      (g.dataBlock b → g.diskBit d'.image b = marked t b) ∧
      ((b-1)%g.superBlock.sBlocksPerGroup < 4 →
        g.diskBit d'.image b = g.diskBit d.image b) := by
  obtain ⟨d',bm,hrun,him,hbits⟩ := pass4_run hl hf hw
  refine ⟨d',hrun,fun b h1 hb => ?_⟩
  rw [him,diskBit_storeBitmap hl hflat h1 hb,hbits b h1]
  have htable := fun ht : g.tableBlock b => hl.tableBlock_place ht
  refine ⟨fun h => by rw [if_pos h],fun h => ?_,fun h => ?_⟩
  · rw [if_neg (fun ht => by have := (htable ht).2; have := h.2.2; omega),if_pos h]
  · rw [if_neg (fun ht => by have := (htable ht).1; omega),
      if_neg (fun hd => by have := hd.2.2; simp only [Globals.skip] at this; omega),
      bitAt_flatBitmap hl hflat h1 hb]

/-- A root directory on a partition whose block bitmap is all zero, and one on a partition with two
groups of 24 blocks where the bitmap of the second group has the bit of block 40 set. -/
def blankImage : Buf := exampleImage 16 [
  inodePiece 2 (inodeBytes 0x41ED 1024 2 [7]),
  blockPiece 7 0 (entryBytes 2 12 2 [46]),
  blockPiece 7 12 (entryBytes 2 1012 2 [46,46])]

def twoGroups : Globals :=
  { exampleGlobals 48 with
    superBlock := { (exampleGlobals 48).superBlock with sInodesCount := 32, sBlocksPerGroup := 24 }
    groupDescBlock := Buf.ofFn 1024
      (pieces [piece 0 (littleEndian 3 4 ++ littleEndian 4 4 ++ littleEndian 5 4),
        piece 32 (littleEndian 27 4 ++ littleEndian 28 4 ++ littleEndian 29 4)]) }

def twoGroupsImage : Buf := exampleImage 48 [
  inodePiece 2 (inodeBytes 0x41ED 1024 2 [7]),
  blockPiece 7 0 (entryBytes 2 12 2 [46]),
  blockPiece 7 12 (entryBytes 2 1012 2 [46,46]),
  blockPiece 27 1 [128]]

theorem pass4_bits_blank : ∃ d₁ t, (getTrueBlockBitmap (exampleGlobals 16) 1
      (calloc ((exampleGlobals 16).superBlock.sBlocksCount+1)) rootInodeNum).run ⟨blankImage,[]⟩ =
        .ok t d₁ ∧
    ∃ d', (pass4 (exampleGlobals 16) 1).run ⟨blankImage,[]⟩ = .ok () d' ∧
      ∀ b, 1 ≤ b → b < (exampleGlobals 16).superBlock.sBlocksCount →
        ((exampleGlobals 16).tableBlock b → (exampleGlobals 16).diskBit d'.image b = true) ∧
        ((exampleGlobals 16).dataBlock b →
          (exampleGlobals 16).diskBit d'.image b = marked t b) ∧
        ((b-1)%(exampleGlobals 16).superBlock.sBlocksPerGroup < 4 →
          (exampleGlobals 16).diskBit d'.image b = (exampleGlobals 16).diskBit blankImage b) := by
  have hrun : endsIn (getTrueBlockBitmap (exampleGlobals 16) 1
      (calloc ((exampleGlobals 16).superBlock.sBlocksCount+1)) rootInodeNum) ⟨blankImage,[]⟩
      (fun _ _ => true) = true := by decide +kernel
  obtain ⟨t,d₁,hw,_⟩ := exists_of_endsIn hrun
  exact ⟨d₁,t,hw,pass4_bits (by decide +kernel) (by decide +kernel)
    (show (exampleGlobals 16).Fits blankImage by decide +kernel) hw⟩

/-- The zero bit of the superblock stays, and so does the set bit of the unused block 40. -/
theorem pass4_leaves_bits :
    (GroupLayout (exampleGlobals 16) ∧ (exampleGlobals 16).Fits blankImage ∧
      ∃ d', (pass4 (exampleGlobals 16) 1).run ⟨blankImage,[]⟩ = .ok () d' ∧
        (exampleGlobals 16).diskBit d'.image 1 = false) ∧
    GroupLayout twoGroups ∧ twoGroups.Fits twoGroupsImage ∧ ¬ twoGroups.tableBlock 40 ∧
      twoGroups.dataBlock 40 ∧
      (∃ d₁ t, (getTrueBlockBitmap twoGroups 1 (calloc (twoGroups.superBlock.sBlocksCount+1))
        rootInodeNum).run ⟨twoGroupsImage,[]⟩ = .ok t d₁ ∧ marked t 40 = false) ∧
      ∃ d', (pass4 twoGroups 1).run ⟨twoGroupsImage,[]⟩ = .ok () d' ∧
        twoGroups.diskBit d'.image 40 = true := by
  have h₁ : endsIn (pass4 (exampleGlobals 16) 1) ⟨blankImage,[]⟩
      (fun _ d' => !(exampleGlobals 16).diskBit d'.image 1) = true := by decide +kernel
  have h₂ : endsIn (getTrueBlockBitmap twoGroups 1 (calloc (twoGroups.superBlock.sBlocksCount+1))
      rootInodeNum) ⟨twoGroupsImage,[]⟩ (fun t _ => !marked t 40) = true := by decide +kernel
  have h₃ : endsIn (pass4 twoGroups 1) ⟨twoGroupsImage,[]⟩
      (fun _ d' => twoGroups.diskBit d'.image 40) = true := by decide +kernel
  obtain ⟨_,d₁,hrun₁,hbit₁⟩ := exists_of_endsIn h₁
  obtain ⟨t,d₂,hrun₂,hbit₂⟩ := exists_of_endsIn h₂
  obtain ⟨_,d₃,hrun₃,hbit₃⟩ := exists_of_endsIn h₃
  refine ⟨⟨by decide +kernel,by decide +kernel,d₁,hrun₁,by simpa using hbit₁⟩,by decide +kernel,
    by decide +kernel,by decide +kernel,by decide +kernel,⟨d₂,t,hrun₂,by simpa using hbit₂⟩,
    d₃,hrun₃,hbit₃⟩

end MyFsck
