import MyFsck.BlockBitmap
import Mathlib.Data.List.Nodup

/-! The loops of `pass4` over the groups, as folds over the block numbers and the group numbers they
go through. The number of groups is rounded up from the number of all blocks, though the groups start
behind the boot block. -/
namespace MyFsck

open ByteBuffer ErrorState

section Trace

variable (g : Globals)

/-- The blocks the inner loop of `pass4` looks at, and the number it goes on with. -/
def groupVisits : (turns block_id : ℕ) → List ℕ × ℕ
  | 0, block_id => ([],block_id)
  | turns+1, block_id =>
    if g.superBlock.sBlocksCount ≤ block_id+1 then ([block_id],block_id+1)
    else
      let r := groupVisits turns (block_id+1)
      (block_id::r.1,r.2)

/-- The blocks its first loop looks at. -/
def visits : (groups block_id : ℕ) → List ℕ
  | 0, _ => []
  | groups+1, block_id =>
    let r := groupVisits g (g.superBlock.sBlocksPerGroup-getSkipBlockNumInGroup g)
      (u32 (block_id+getSkipBlockNumInGroup g))
    r.1 ++ visits groups r.2

/-- What the first loop does with a block. -/
def checkBlock (true_bitmap : Buf) (s : Buf × Bool) (block_id : ℕ) : Fsck (Buf × Bool) := do
  let alloc_bit ← inBounds (getBlockAllocBit s.1 block_id)
  let t ← inBounds (true_bitmap.load block_id)
  checkBit s.1 s.2 block_id t alloc_bit

/-- What the loading of the bitmaps does with the descriptor of group `i`. -/
def loadGroup (bitmap : Buf) (i : ℕ) (group_desc : GroupDesc) : Fsck Buf := do
  let b ← g.readBlocks group_desc.bgBlockBitmap g.getGroupBlockBitmapBlockNum
    (g.getGroupBlockBitmapBlockNum*g.blockSize)
  inBounds (bitmap.overlay (u32 (i*g.getGroupBlockBitmapBlockNum*g.blockSize)) b)

/-- What the loop over the inode tables does with a descriptor. -/
def checkTable (s : Buf × Bool) (group_desc : GroupDesc) : Fsck (Buf × Bool) :=
  (List.range g.getGroupInodeBlockNum).foldlM (fun s j => do
    let block_id := u32 (group_desc.bgInodeTable+j)
    let alloc_bit ← inBounds (getBlockAllocBit s.1 block_id)
    checkBit s.1 s.2 block_id 1 alloc_bit) s

/-- What the storing of the bitmaps does with the descriptor of group `i`. -/
def storeGroup (bitmap : Buf) (i : ℕ) (group_desc : GroupDesc) : Fsck Unit :=
  (List.range g.getGroupBlockBitmapBlockNum).foldlM (fun _ j =>
    g.write (u32 (group_desc.bgBlockBitmap+j)) bitmap
      (u32 (i*g.getGroupBlockBitmapBlockNum*g.blockSize)+j*g.blockSize)) ()

/-- The first loop of `pass4` goes through `blocks`, and the other three through `groups`, reading the
descriptor of each. -/
structure GoesThrough (blocks groups : List ℕ) : Prop where
  first : ∀ t s, checkGroups g t g.getBlockGroupNum 1 s = blocks.foldlM (checkBlock t) s
  load : g.getBlockBitmapInPartition =
    groups.foldlM (fun bitmap i => readGroupDesc g i >>= loadGroup g bitmap i)
      (Buf.zero (u32 (g.getBlockGroupNum*g.getGroupBlockBitmapBlockNum*g.blockSize)))
  tables : ∀ s, checkInodeTables g s = groups.foldlM (fun s i => readGroupDesc g i >>= checkTable g s) s
  store : ∀ bitmap, g.writeBlockBitmapInPartition bitmap =
    groups.foldlM (fun _ i => readGroupDesc g i >>= storeGroup g bitmap i) ()

theorem checkGroup_visits (t : Buf) (turns block_id : ℕ) (s : Buf × Bool) :
    checkGroup g t turns block_id s = (do
      let s ← (groupVisits g turns block_id).1.foldlM (checkBlock t) s
      pure ((groupVisits g turns block_id).2,s)) := by
  induction turns generalizing block_id s with
  | zero => simp [checkGroup,groupVisits]
  | succ turns ih =>
    rw [checkGroup,groupVisits]
    by_cases hend : g.superBlock.sBlocksCount ≤ block_id+1
    · simp [hend,checkBlock]
    · simp [hend,checkBlock,ih]

theorem checkGroups_visits (t : Buf) (groups block_id : ℕ) (s : Buf × Bool) :
    checkGroups g t groups block_id s = (visits g groups block_id).foldlM (checkBlock t) s := by
  induction groups generalizing block_id s with
  | zero => rfl
  | succ groups ih =>
    rw [checkGroups,visits,checkGroup_visits,List.foldlM_append,bind_assoc]
    congr 1
    funext s
    rw [pure_bind]
    exact ih _ s

theorem goesThrough : GoesThrough g (visits g g.getBlockGroupNum 1) (List.range g.getBlockGroupNum) where
  first t s := checkGroups_visits g t _ 1 s
  load := by
    unfold Globals.getBlockBitmapInPartition Globals.getBlockBitmapInGroup loadGroup
    simp only [bind_assoc]
  tables _ := rfl
  store _ := rfl

end Trace

section Groups

variable (g : Globals)

/-- Group `a` exists: it starts in front of the end of the file system. -/
def Globals.GroupExists (a : ℕ) : Prop := g.groupStart a < g.superBlock.sBlocksCount

/-- A block of an existing group behind what `pass4` skips there. -/
def Globals.NonSkipped (b : ℕ) : Prop :=
  ∃ a, g.GroupExists a ∧ g.groupStart a+getSkipBlockNumInGroup g ≤ b ∧ b < g.groupStart (a+1) ∧
    b < g.superBlock.sBlocksCount

/-- A file system of 1 KiB blocks, with a first group, each of whose groups is longer than what is
skipped of it. -/
structure SmallBlocks : Prop where
  block_size : g.blockSize = 1024
  first_data_block : g.superBlock.sFirstDataBlock = 1
  count_gt : 1 < g.superBlock.sBlocksCount
  count_lt : g.superBlock.sBlocksCount < 2^32
  per_group_lt : g.superBlock.sBlocksPerGroup < 2^32
  long : ∀ a, g.GroupExists a → getSkipBlockNumInGroup g < g.superBlock.sBlocksPerGroup ∧
    g.groupStart a+getSkipBlockNumInGroup g < g.superBlock.sBlocksCount

/-- `blocks` are the blocks of the existing groups that are not skipped, each once, and `groups` the
existing groups. -/
structure Enumerates (blocks groups : List ℕ) : Prop where
  blocks_nodup : blocks.Nodup
  blocks_mem : ∀ b, b ∈ blocks ↔ g.NonSkipped b
  groups_nodup : groups.Nodup
  groups_mem : ∀ a, a ∈ groups ↔ g.GroupExists a

/-- The blocks of group `a` that are looked at. -/
def Globals.groupBlocks (a : ℕ) : List ℕ :=
  List.range' (g.groupStart a+getSkipBlockNumInGroup g)
    (min (g.superBlock.sBlocksPerGroup-getSkipBlockNumInGroup g)
      (g.superBlock.sBlocksCount-(g.groupStart a+getSkipBlockNumInGroup g)))

variable {g}

theorem groupVisits_eq {turns b : ℕ} (h : turns ≠ 0 → b < g.superBlock.sBlocksCount) :
    groupVisits g turns b = (List.range' b (min turns (g.superBlock.sBlocksCount-b)),
      min (b+turns) (max b g.superBlock.sBlocksCount)) := by
  induction turns generalizing b with
  | zero => simp [groupVisits]
  | succ turns ih =>
    have hb := h (by omega)
    obtain ⟨k,hk⟩ : ∃ k, min (turns+1) (g.superBlock.sBlocksCount-b) = k+1 :=
      ⟨min turns (g.superBlock.sBlocksCount-(b+1)),by omega⟩
    rw [groupVisits,hk,List.range'_succ]
    by_cases hend : g.superBlock.sBlocksCount ≤ b+1
    · have h₀ : k = 0 := by omega
      have h₁ : min (b+(turns+1)) (max b g.superBlock.sBlocksCount) = b+1 := by omega
      rw [if_pos hend,h₀,h₁]
      rfl
    · have h₀ : k = min turns (g.superBlock.sBlocksCount-(b+1)) := by omega
      have h₁ : min (b+(turns+1)) (max b g.superBlock.sBlocksCount) =
          min (b+1+turns) (max (b+1) g.superBlock.sBlocksCount) := by omega
      rw [if_neg hend,ih (fun _ => by omega),h₀,h₁]

theorem visits_eq (hs : SmallBlocks g) {n a : ℕ} (h : ∀ c < a+n, g.GroupExists c) :
    visits g n (min (g.groupStart a) g.superBlock.sBlocksCount) =
      (List.range' a n).flatMap g.groupBlocks := by
  induction n generalizing a with
  | zero => rfl
  | succ n ih =>
    have hex := h a (by omega)
    obtain ⟨hskip,hlong⟩ := hs.long a hex
    have hlt := hs.count_lt
    have hmin : min (g.groupStart a) g.superBlock.sBlocksCount = g.groupStart a := by
      unfold Globals.GroupExists at hex
      omega
    have hnext : min (g.groupStart a+getSkipBlockNumInGroup g+
        (g.superBlock.sBlocksPerGroup-getSkipBlockNumInGroup g))
        (max (g.groupStart a+getSkipBlockNumInGroup g) g.superBlock.sBlocksCount) =
        min (g.groupStart (a+1)) g.superBlock.sBlocksCount := by
      rw [groupStart_succ]
      omega
    rw [visits,hmin,u32_eq (by omega),groupVisits_eq (fun _ => hlong),hnext]
    dsimp only
    rw [ih fun c hc => h c (by omega),List.range'_succ,List.flatMap_cons]
    rfl

theorem mem_groupBlocks (hs : SmallBlocks g) {a b : ℕ} (ha : g.GroupExists a) :
    b ∈ g.groupBlocks a ↔ g.groupStart a+getSkipBlockNumInGroup g ≤ b ∧ b < g.groupStart (a+1) ∧
      b < g.superBlock.sBlocksCount := by
  have hlong := hs.long a ha
  rw [Globals.groupBlocks,List.mem_range'_1,groupStart_succ]
  omega

theorem groupBlocks_disjoint (hs : SmallBlocks g) {a c : ℕ} (ha : g.GroupExists a)
    (hc : g.GroupExists c) (h : a < c) : (g.groupBlocks a).Disjoint (g.groupBlocks c) := by
  intro b hb hb'
  rw [mem_groupBlocks hs ha] at hb
  rw [mem_groupBlocks hs hc] at hb'
  have hmul := Nat.mul_le_mul_right g.superBlock.sBlocksPerGroup (show a+1 ≤ c from h)
  simp only [Globals.groupStart] at hb hb'
  omega

theorem lt_getBlockGroupNum_iff (hs : SmallBlocks g) :
    (∀ a, a < g.getBlockGroupNum ↔ g.GroupExists a) ↔
      g.superBlock.sBlocksCount+g.superBlock.sBlocksPerGroup ≤ 2^32 ∧
        (g.superBlock.sBlocksCount-1)%g.superBlock.sBlocksPerGroup ≠ 0 := by
  have hgt := hs.count_gt
  have hlt := hs.count_lt
  have hplt := hs.per_group_lt
  have h₀ : g.GroupExists 0 := by
    unfold Globals.GroupExists Globals.groupStart
    omega
  have hpos : 0 < g.superBlock.sBlocksPerGroup := by
    have := (hs.long 0 h₀).1
    omega
  have hdm := Nat.div_add_mod (g.superBlock.sBlocksCount-1) g.superBlock.sBlocksPerGroup
  by_cases hwrap : g.superBlock.sBlocksCount+g.superBlock.sBlocksPerGroup ≤ 2^32
  · have hu : u32 (g.superBlock.sBlocksCount+g.superBlock.sBlocksPerGroup+(2^32-1)) =
        g.superBlock.sBlocksCount+g.superBlock.sBlocksPerGroup-1 := by
      unfold u32
      omega
    have hnum : ∀ a, a < g.getBlockGroupNum ↔ a*g.superBlock.sBlocksPerGroup < g.superBlock.sBlocksCount :=
      fun a => by
        rw [Globals.getBlockGroupNum,hu,Nat.lt_iff_add_one_le,Nat.le_div_iff_mul_le hpos,Nat.succ_mul]
        omega
    simp only [hnum,Globals.GroupExists,Globals.groupStart,hwrap,true_and]
    constructor
    · intro h hmod
      have hend := h ((g.superBlock.sBlocksCount-1)/g.superBlock.sBlocksPerGroup)
      rw [hmod,Nat.mul_comm] at hdm
      omega
    · intro hmod a
      refine ⟨fun ha => ?_,fun ha => by omega⟩
      have hne : a*g.superBlock.sBlocksPerGroup ≠ g.superBlock.sBlocksCount-1 := fun he =>
        hmod (by rw [← he,Nat.mul_mod_left])
      omega
  · have hu : u32 (g.superBlock.sBlocksCount+g.superBlock.sBlocksPerGroup+(2^32-1)) =
        g.superBlock.sBlocksCount+g.superBlock.sBlocksPerGroup-1-2^32 := by
      unfold u32
      omega
    have hnum : g.getBlockGroupNum = 0 := by
      rw [Globals.getBlockGroupNum,hu]
      exact Nat.div_eq_of_lt (by omega)
    refine iff_of_false (fun h => ?_) fun h => hwrap h.1
    have := (h 0).mpr h₀
    omega

theorem visits_enumerates (hs : SmallBlocks g) (h : ∀ a, a < g.getBlockGroupNum ↔ g.GroupExists a) :
    (visits g g.getBlockGroupNum 1).Nodup ∧
      ∀ b, b ∈ visits g g.getBlockGroupNum 1 ↔ g.NonSkipped b := by
  have hgt := hs.count_gt
  have heq := @visits_eq g hs g.getBlockGroupNum 0 fun c hc => (h c).mp (by omega)
  rw [show min (g.groupStart 0) g.superBlock.sBlocksCount = 1 by
    simp only [Globals.groupStart,Nat.zero_mul]
    omega] at heq
  have hex : ∀ c ∈ List.range' 0 g.getBlockGroupNum, g.GroupExists c := fun c hc =>
    (h c).mp (by have := List.mem_range'_1.mp hc; omega)
  rw [heq]
  constructor
  · refine List.nodup_flatMap.mpr ⟨fun a _ => List.nodup_range',?_⟩
    exact (List.pairwise_lt_range' 1).imp_of_mem fun ha hc hlt =>
      groupBlocks_disjoint hs (hex _ ha) (hex _ hc) hlt
  · intro b
    rw [List.mem_flatMap]
    constructor
    · rintro ⟨a,ha,hb⟩
      exact ⟨a,hex a ha,(mem_groupBlocks hs (hex a ha)).mp hb⟩
    · rintro ⟨a,ha,hb⟩
      refine ⟨a,?_,(mem_groupBlocks hs ha).mpr hb⟩
      have := (h a).mpr ha
      exact List.mem_range'_1.mpr (by omega)

/-- `pass4` goes through the blocks and the groups of the file system exactly if the blocks behind the
boot block do not make up whole groups, and the sum it rounds up does not wrap around. -/
theorem pass4_enumerates_iff (hs : SmallBlocks g) :
    GoesThrough g (visits g g.getBlockGroupNum 1) (List.range g.getBlockGroupNum) ∧
      (Enumerates g (visits g g.getBlockGroupNum 1) (List.range g.getBlockGroupNum) ↔
        g.superBlock.sBlocksCount+g.superBlock.sBlocksPerGroup ≤ 2^32 ∧
          (g.superBlock.sBlocksCount-1)%g.superBlock.sBlocksPerGroup ≠ 0) := by
  refine ⟨goesThrough g,fun h => (lt_getBlockGroupNum_iff hs).mp fun a => ?_,fun h => ?_⟩
  · rw [← h.groups_mem,List.mem_range]
  · have hnum := (lt_getBlockGroupNum_iff hs).mpr h
    obtain ⟨hnodup,hmem⟩ := visits_enumerates hs hnum
    exact ⟨hnodup,hmem,List.nodup_range,fun a => by rw [List.mem_range,hnum]⟩

end Groups

/-- `twoGroups` has 48 blocks in groups of 24, and with one more block the program counts a third
group, for which there is no descriptor. -/
def oneMoreBlock : Globals :=
  { twoGroups with superBlock := { twoGroups.superBlock with sBlocksCount := 49 } }

def oneMoreImage : Buf := exampleImage 49 [
  inodePiece 2 (inodeBytes 0x41ED 1024 2 [7]),
  blockPiece 7 0 (entryBytes 2 12 2 [46]),
  blockPiece 7 12 (entryBytes 2 1012 2 [46,46])]

theorem groups_long {g : Globals} (h : g.superBlock.sBlocksPerGroup = 24 ∧ getSkipBlockNumInGroup g = 6 ∧
    g.superBlock.sBlocksCount ∈ [48,49]) {a : ℕ} (ha : g.GroupExists a) :
    getSkipBlockNumInGroup g < g.superBlock.sBlocksPerGroup ∧
      g.groupStart a+getSkipBlockNumInGroup g < g.superBlock.sBlocksCount := by
  obtain ⟨hper,hskip,hcount⟩ := h
  simp only [List.mem_cons,List.not_mem_nil,or_false] at hcount
  simp only [Globals.GroupExists,Globals.groupStart,hper,hskip] at ha ⊢
  omega

theorem twoGroups_small : SmallBlocks twoGroups :=
  ⟨by decide,by decide,by decide,by decide,by decide,fun _ => groups_long (by decide)⟩

theorem oneMoreBlock_small : SmallBlocks oneMoreBlock :=
  ⟨by decide,by decide,by decide,by decide,by decide,fun _ => groups_long (by decide)⟩

theorem pass4_enumerates_iff_twoGroups :
    GoesThrough twoGroups (visits twoGroups twoGroups.getBlockGroupNum 1)
        (List.range twoGroups.getBlockGroupNum) ∧
      (Enumerates twoGroups (visits twoGroups twoGroups.getBlockGroupNum 1)
          (List.range twoGroups.getBlockGroupNum) ↔
        twoGroups.superBlock.sBlocksCount+twoGroups.superBlock.sBlocksPerGroup ≤ 2^32 ∧
          (twoGroups.superBlock.sBlocksCount-1)%twoGroups.superBlock.sBlocksPerGroup ≠ 0) :=
  pass4_enumerates_iff twoGroups_small

/-- The third group, whose descriptor is all zero, is gone through, block 55 of 49 is looked at, and
there the run stops. -/
theorem pass4_third_group : SmallBlocks oneMoreBlock ∧
    ¬ Enumerates oneMoreBlock (visits oneMoreBlock oneMoreBlock.getBlockGroupNum 1)
      (List.range oneMoreBlock.getBlockGroupNum) ∧
    (2 ∈ List.range oneMoreBlock.getBlockGroupNum ∧ ¬ oneMoreBlock.GroupExists 2 ∧
      oneMoreBlock.blockBitmap 2 = 0) ∧
    (55 ∈ visits oneMoreBlock oneMoreBlock.getBlockGroupNum 1 ∧
      oneMoreBlock.superBlock.sBlocksCount = 49) ∧
    ∃ d', (pass4 oneMoreBlock 1).run ⟨oneMoreImage,[]⟩ = .error .outOfBounds d' := by
  have hmem : 2 ∈ List.range oneMoreBlock.getBlockGroupNum := by decide
  have hno : ¬ oneMoreBlock.GroupExists 2 := by
    unfold Globals.GroupExists
    decide
  exact ⟨oneMoreBlock_small,fun h => hno ((h.groups_mem 2).mp hmem),⟨hmem,hno,by decide +kernel⟩,
    ⟨by decide +kernel,rfl⟩,exists_of_stopsWith (by decide +kernel)⟩

end MyFsck
