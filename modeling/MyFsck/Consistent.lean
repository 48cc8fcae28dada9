import MyFsck.BlockMarks
import MyFsck.Tree
import MyFsck.BitmapLookup
import MyFsck.FileMarks
import MyFsck.LinkCounts
import MyFsck.Pass1Walk

/-! Consistent file systems, as the ext2 format has them and whatever the program makes of them. -/
namespace MyFsck

open ByteBuffer Unfolding

/-- The first inode that is not reserved. -/
def firstInode : ℕ := 11

/-- A fifo, a device or a socket. -/
def inodeIsSpecial (inode : Inode) : Bool := [0x1000,0x2000,0x6000,0xC000].contains (inode.iMode &&& 0xF000)

/-- Not so a special file, or a symbolic link whose target stands in the inode. -/
def hasBlocks (inode : Inode) : Bool :=
  !(inodeIsLnk inode && decide (inode.iSize < 60)) && !inodeIsSpecial inode

section Format

variable (g : Globals) (img : Buf)

/-- An inode in use: the tree names it, or it is one of the reserved inodes and allocated. -/
def Globals.Used (i : ℕ) : Prop := g.InUseBy img i ∨
  (1 ≤ i ∧ i < firstInode ∧ i ≤ g.superBlock.sInodesCount ∧ g.inodeNumbers.bit g img i = true)

/-- The first two entries of directory `x` with parent `p`. -/
def DotsAre (p x : ℕ) : Prop := ∃ o e o' e' es ls,
  g.slots img x = ((o,e)::(o',e')::es)::ls ∧ e.inode = x ∧ e'.inode = p

/-- What a file of more than 65804 blocks maps behind its triple-indirect block. -/
def Globals.MapsDeep (inode : Inode) (b : ℕ) : Prop :=
  let t := inode.iBlock.getD 14 0
  let n := g.sizeInBlocks inode
  b ≠ 0 ∧ ((65804 < n ∧ t = b) ∨ (∃ j, 65804+65536*j < n ∧ g.indirect img t j = b) ∨
    (∃ j, 65804+256*j < n ∧ g.indirect img (g.indirect img t (j/256)) (j%256) = b) ∨
    ∃ k, 65804+k < n ∧
      g.indirect img (g.indirect img (g.indirect img t (k/65536)) (k/256%256)) (k%256) = b)

def Globals.Owns (x b : ℕ) : Prop := hasBlocks (g.inodeAt img x) = true ∧
  (g.Maps img (g.inodeAt img x) b ∨ g.MapsDeep img (g.inodeAt img x) b)

/-- A consistent file system: its directories form a tree with the right dots, its inode bitmap and its
link counts fit the tree, no block has two owners, and its block bitmap fits the owners. -/
structure Consistent : Prop where
  root_le : rootInodeNum ≤ g.superBlock.sInodesCount
  root_dir : inodeIsDir (g.inodeAt img rootInodeNum) = true
  dirs : ∀ x, g.InTree img x → ConsistentDir g img x
  kinds : ∀ x, g.InTree img x → ∀ e ∈ g.children img x, (inodeIsDir (g.inodeAt img e.inode) ||
    inodeIsReg (g.inodeAt img e.inode) || inodeIsLnk (g.inodeAt img e.inode) ||
    inodeIsSpecial (g.inodeAt img e.inode)) = true
  root_dots : DotsAre g img rootInodeNum rootInodeNum
  dots : ∀ x, g.InTree img x → ∀ k ∈ g.dirsBelow img x, DotsAre g img x k
  once : ∀ x, g.InTree img x → rootInodeNum ∉ g.dirsBelow img x ∧ (g.dirsBelow img x).Nodup
  allocated : ∀ i, firstInode ≤ i → i ≤ g.superBlock.sInodesCount →
    (g.inodeNumbers.bit g img i = true ↔ g.InUseBy img i)
  links : ∀ i, 1 ≤ i → i ≤ g.superBlock.sInodesCount → (g.inodeAt img i).iLinksCount = g.naming img i
  owned : ∀ x b, g.Used img x → g.Owns img x b → g.dataBlock b
  owner : ∀ x y b, g.Used img x → g.Used img y → g.Owns img x b → g.Owns img y b → x = y
  bits : ∀ b, 1 ≤ b → b < g.superBlock.sBlocksCount →
    (g.diskBit img b = true ↔ ¬ g.dataBlock b ∨ ∃ x, g.Used img x ∧ g.Owns img x b)

/-- What the program takes for granted in the file systems it checks. -/
structure WithinLimits : Prop where
  types : ∀ x, g.InTree img x → ∀ e ∈ g.children img x,
    dirIsDir e = inodeIsDir (g.inodeAt img e.inode)
  used_first : ∀ x, g.InTree img x → ∀ b ∈ g.dirData img x,
    (slotsOf (g.blockAt img b)).Pairwise fun p q => inUse p = false → inUse q = false
  dir_size : ∀ x, g.InTree img x → g.sizeInBlocks (g.inodeAt img x) ≤ 12
  later : ∀ x, g.InTree img x → ∀ b ∈ (g.dirData img x).tail,
    dots ((slotsOf (g.blockAt img b)).filter inUse) = []
  links : ∀ i, 1 ≤ i → i ≤ g.superBlock.sInodesCount →
    (g.inodeAt img i).iLinksCount ≤ 127 ∨ 65408 ≤ (g.inodeAt img i).iLinksCount
  place : ∀ b, 1 ≤ b → b < g.superBlock.sBlocksCount → bitAt (g.flatBitmap img) b = g.diskBit img b
  owners : ∀ x b, g.Used img x → g.Owns img x b →
    g.InUseBy img x ∧ inodeIsLnk (g.inodeAt img x) = false
  files : ∀ x b, g.InUseBy img x → inodeIsReg (g.inodeAt img x) = true → g.Owns img x b →
    g.sizeInBlocks (g.inodeAt img x) ≤ 65549
  pointers : ∀ x, g.InUseBy img x → inodeIsReg (g.inodeAt img x) = true →
    PointersThere g img (g.inodeAt img x)
  special : ∀ x, g.InUseBy img x → inodeIsSpecial (g.inodeAt img x) = true →
    (g.inodeAt img x).iBlock.getD 0 0 = 0

end Format

section Use

variable {g : Globals} {img : Buf} {x : ℕ}

namespace Consistent

theorem isDir (hc : Consistent g img) (hx : g.InTree img x) : inodeIsDir (g.inodeAt img x) = true := by
  rcases Relation.ReflTransGen.cases_tail hx with rfl | ⟨y,_,hk⟩
  · exact hc.root_dir
  · exact (List.mem_filter.mp hk).2

theorem num (hc : Consistent g img) (hx : g.InUseBy img x) : 1 ≤ x ∧ x ≤ g.superBlock.sInodesCount := by
  rcases hx with rfl | ⟨y,hy,hk⟩
  · exact ⟨by decide,hc.root_le⟩
  · obtain ⟨e,he,rfl⟩ := List.mem_map.mp hk
    have hname := children_named he
    exact ⟨usedNames_pos hname,(hc.dirs y hy).names_le _ hname⟩

theorem kind (hc : Consistent g img) (hx : g.InUseBy img x) : g.InTree img x ∨
    inodeIsDir (g.inodeAt img x) = false ∧ (inodeIsReg (g.inodeAt img x) = true ∨
      inodeIsLnk (g.inodeAt img x) = true ∨ inodeIsSpecial (g.inodeAt img x) = true) := by
  rcases hx with rfl | ⟨y,hy,hk⟩
  · exact Or.inl .refl
  · cases hd : inodeIsDir (g.inodeAt img x) with
    | true => exact Or.inl (hy.tail (List.mem_filter.mpr ⟨hk,hd⟩))
    | false =>
      obtain ⟨e,he,rfl⟩ := List.mem_map.mp hk
      have hkind := hc.kinds y hy e he
      simp only [hd,Bool.false_or,Bool.or_eq_true] at hkind
      exact Or.inr ⟨rfl,or_assoc.mp hkind⟩

theorem oneParent (hc : Consistent g img) : OneParent (g.dirsBelow img) rootInodeNum where
  root x hx := (hc.once x hx).1
  one x y z hx hy hzx hzy := by
    obtain ⟨o,e,o',e',es,ls,hs,_,he⟩ := hc.dots x hx z hzx
    obtain ⟨p,f,p',f',fs,ms,hs',_,hf⟩ := hc.dots y hy z hzy
    rw [hs] at hs'
    simp only [List.cons.injEq,Prod.mk.injEq] at hs'
    rw [← he,← hf,hs'.1.2.1.2]

end Consistent

theorem dir_hasBlocks {inode : Inode} (h : inodeIsDir inode = true) : hasBlocks inode = true := by
  simp only [inodeIsDir,beq_iff_eq] at h
  simp [hasBlocks,inodeIsLnk,inodeIsSpecial,h,ext2SIfdir,ext2SIflnk]

theorem reg_hasBlocks {inode : Inode} (h : inodeIsReg inode = true) : hasBlocks inode = true := by
  simp only [inodeIsReg,beq_iff_eq] at h
  simp [hasBlocks,inodeIsLnk,inodeIsSpecial,h,ext2SIfreg,ext2SIflnk]

theorem special_not {inode : Inode} (h : inodeIsSpecial inode = true) :
    inodeIsLnk inode = false ∧ inodeIsReg inode = false ∧ hasBlocks inode = false := by
  refine ⟨?_,?_,by simp [hasBlocks,h]⟩
  all_goals
    simp only [inodeIsSpecial,List.contains_cons,List.contains_nil,Bool.or_false,Bool.or_eq_true,
      beq_iff_eq] at h
    simp only [inodeIsLnk,inodeIsReg,ext2SIflnk,ext2SIfreg,beq_eq_false_iff_ne]
    omega

theorem maps_small {inode : Inode} (hsize : g.sizeInBlocks inode ≤ 12) {b : ℕ} :
    (g.Maps img inode b ∨ g.MapsDeep img inode b) ↔
      b ≠ 0 ∧ ∃ k < g.sizeInBlocks inode, g.blockOf img inode k = b := by
  constructor
  · rintro (⟨hb,h | ⟨h,_⟩ | ⟨h,_⟩ | ⟨j,h,_⟩⟩ | ⟨hb,⟨h,_⟩ | ⟨j,h,_⟩ | ⟨j,h,_⟩ | ⟨k,h,_⟩⟩)
    · exact ⟨hb,h⟩
    all_goals omega
  · exact fun ⟨hb,h⟩ => Or.inl ⟨hb,Or.inl h⟩

theorem not_mapsDeep {inode : Inode} (hsize : g.sizeInBlocks inode ≤ 65804) (b : ℕ) :
    ¬ g.MapsDeep img inode b := by
  rintro ⟨_,⟨h,_⟩ | ⟨j,h,_⟩ | ⟨j,h,_⟩ | ⟨k,h,_⟩⟩
  all_goals omega

end Use

section Check

variable (g : Globals) (img : Buf) (ds : List ℕ)

/-- The inode numbers of the first two entries. -/
def Globals.dotInodes (x : ℕ) : List ℕ := (((g.slots img x).headD []).take 2).map fun p => p.2.inode

def Globals.NamedIn (i : ℕ) : Prop :=
  i = rootInodeNum ∨ ∃ x ∈ ds, i ∈ (g.children img x).map DirEntry.inode

instance (i : ℕ) : Decidable (g.NamedIn img ds i) := inferInstanceAs (Decidable (_ ∨ _))

/-- The inodes in use. -/
def Globals.usedIn : List ℕ := (List.range (g.superBlock.sInodesCount+1)).filter fun i =>
  g.NamedIn img ds i ∨ 1 ≤ i ∧ i < firstInode ∧ g.inodeNumbers.bit g img i = true

def Globals.ownBlocks (x : ℕ) : List ℕ :=
  if hasBlocks (g.inodeAt img x) then (g.dirData img x).filter (· ≠ 0) else []

structure SmallTree : Prop where
  unfolds : Unfolds (g.dirsBelow img) [rootInodeNum] ds
  nodup : ds.Nodup
  num_le : ∀ x ∈ ds, x ≤ g.superBlock.sInodesCount
  root_dir : inodeIsDir (g.inodeAt img rootInodeNum) = true
  small : ∀ x ∈ g.usedIn img ds, g.sizeInBlocks (g.inodeAt img x) ≤ 12
  no_hole : ∀ x ∈ ds, ∀ b ∈ g.dirData img x, b ≠ 0
  whole : ∀ x ∈ ds, ∀ b ∈ g.dirData img x, slotsCheck (g.blockAt img b) (g.blockAt img b).size 0 = true
  names_le : ∀ x ∈ ds, ∀ n ∈ g.usedNames img x, n ≤ g.superBlock.sInodesCount
  ends : ∀ x ∈ ds, ∀ k < 15, g.sizeInBlocks (g.inodeAt img x) ≤ k → (g.inodeAt img x).iBlock.getD k 0 = 0
  kinds : ∀ x ∈ ds, ∀ e ∈ g.children img x, (inodeIsDir (g.inodeAt img e.inode) ||
    inodeIsReg (g.inodeAt img e.inode) || inodeIsLnk (g.inodeAt img e.inode) ||
    inodeIsSpecial (g.inodeAt img e.inode)) = true
  root_dots : g.dotInodes img rootInodeNum = [rootInodeNum,rootInodeNum]
  dots : ∀ x ∈ ds, ∀ k ∈ g.dirsBelow img x, g.dotInodes img k = [k,x]
  once : ∀ x ∈ ds, rootInodeNum ∉ g.dirsBelow img x ∧ (g.dirsBelow img x).Nodup
  allocated : ∀ i < g.superBlock.sInodesCount+1, firstInode ≤ i →
    (g.inodeNumbers.bit g img i = true ↔ g.NamedIn img ds i)
  links : ∀ i < g.superBlock.sInodesCount+1, 1 ≤ i →
    (g.inodeAt img i).iLinksCount = (ds.map fun x => (g.usedNames img x).count i).sum
  owned : ∀ x ∈ g.usedIn img ds, ∀ b ∈ g.ownBlocks img x, g.dataBlock b
  owner : ∀ x ∈ g.usedIn img ds, ∀ y ∈ g.usedIn img ds, ∀ b ∈ g.ownBlocks img x,
    b ∈ g.ownBlocks img y → x = y
  bits : ∀ b < g.superBlock.sBlocksCount, 1 ≤ b →
    (g.diskBit img b = true ↔ ¬ g.dataBlock b ∨ ∃ x ∈ g.usedIn img ds, b ∈ g.ownBlocks img x)

variable {g img ds}

theorem dotsAre_of {p x : ℕ} (h : g.dotInodes img x = [x,p]) : DotsAre g img p x := by
  unfold Globals.dotInodes at h
  unfold DotsAre
  match hs : g.slots img x with
  | [] => simp [hs] at h
  | []::_ => simp [hs] at h
  | [_]::_ => simp [hs] at h
  | (a::a'::es)::ls =>
    simp only [hs,List.headD_cons,List.take_succ_cons,List.take_zero,List.map_cons,List.map_nil,
      List.cons.injEq,and_true] at h
    exact ⟨a.1,a.2,a'.1,a'.2,es,ls,rfl,h.1,h.2⟩

namespace SmallTree

variable (h : SmallTree g img ds)
include h

theorem inTree_iff {x : ℕ} : g.InTree img x ↔ x ∈ ds := h.unfolds.mem_iff.symm

theorem inUseBy_iff {i : ℕ} : g.InUseBy img i ↔ g.NamedIn img ds i := by
  simp only [Globals.InUseBy,Globals.NamedIn,h.inTree_iff]

theorem namedIn_le {i : ℕ} (hi : g.NamedIn img ds i) : i ≤ g.superBlock.sInodesCount := by
  rcases hi with rfl | ⟨x,hx,hi⟩
  · exact h.num_le _ (h.inTree_iff.mp .refl)
  · obtain ⟨e,he,rfl⟩ := List.mem_map.mp hi
    exact h.names_le x hx _ (children_named he)

theorem used_iff {i : ℕ} : g.Used img i ↔ i ∈ g.usedIn img ds := by
  simp only [Globals.Used,h.inUseBy_iff,Globals.usedIn,List.mem_filter,List.mem_range,
    decide_eq_true_eq]
  constructor
  · rintro (hi | ⟨h1,h2,h3,h4⟩)
    · exact ⟨Nat.lt_succ_of_le (h.namedIn_le hi),Or.inl hi⟩
    · exact ⟨Nat.lt_succ_of_le h3,Or.inr ⟨h1,h2,h4⟩⟩
  · rintro ⟨hlt,hi | ⟨h1,h2,h4⟩⟩
    · exact Or.inl hi
    · exact Or.inr ⟨h1,h2,Nat.le_of_lt_succ hlt,h4⟩

theorem owns_iff {x b : ℕ} (hx : x ∈ g.usedIn img ds) : g.Owns img x b ↔ b ∈ g.ownBlocks img x := by
  rw [Globals.Owns,maps_small (h.small x hx),Globals.ownBlocks]
  by_cases hblocks : hasBlocks (g.inodeAt img x) = true
  · simp [Globals.dirData,hblocks,and_comm]
  · simp [hblocks]

theorem naming_eq (i : ℕ) : g.naming img i = (ds.map fun x => (g.usedNames img x).count i).sum :=
  MyFsck.naming_eq h.unfolds h.nodup h.num_le i

theorem dir {x : ℕ} (hx : x ∈ ds) : ConsistentDir g img x where
  no_hole := h.no_hole x hx
  whole b hb := whole_of_check (h.whole x hx b hb)
  names_le := h.names_le x hx
  ends := by
    have hmem : x ∈ g.usedIn img ds := h.used_iff.mp (Or.inl (tree_inUseBy (h.inTree_iff.mpr hx)))
    have hsmall := h.small x hmem
    exact ⟨fun k hk => h.ends x hx k (by omega),fun hk => h.ends x hx 12 (by decide) hk,
      fun _ => h.ends x hx 13 (by decide) (by omega),fun _ => h.ends x hx 14 (by decide) (by omega)⟩

theorem consistent : Consistent g img where
  root_le := h.num_le _ (h.inTree_iff.mp .refl)
  root_dir := h.root_dir
  dirs x hx := h.dir (h.inTree_iff.mp hx)
  kinds x hx := h.kinds x (h.inTree_iff.mp hx)
  root_dots := dotsAre_of h.root_dots
  dots x hx k hk := dotsAre_of (h.dots x (h.inTree_iff.mp hx) k hk)
  once x hx := h.once x (h.inTree_iff.mp hx)
  allocated i hi hle := by rw [h.inUseBy_iff,h.allocated i (Nat.lt_succ_of_le hle) hi]
  links i h1 hi := by rw [h.naming_eq,h.links i (Nat.lt_succ_of_le hi) h1]
  owned x b hx hown := by
    rw [h.used_iff] at hx
    exact h.owned x hx b ((h.owns_iff hx).mp hown)
  owner x y b hx hy hown hown' := by
    rw [h.used_iff] at hx hy
    exact h.owner x hx y hy b ((h.owns_iff hx).mp hown) ((h.owns_iff hy).mp hown')
  bits b h1 hb := by
    rw [h.bits b hb h1]
    refine or_congr Iff.rfl (exists_congr fun x => ?_)
    rw [h.used_iff]
    exact and_congr_right fun hx => (h.owns_iff hx).symm

end SmallTree

end Check

end MyFsck
