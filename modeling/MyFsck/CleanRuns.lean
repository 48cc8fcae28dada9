import MyFsck.Consistent
import MyFsck.Settled
import MyFsck.SuperGeometry
import MyFsck.PartitionLoop

/-! Which consistent file systems a run leaves alone. -/
namespace MyFsck

open ByteBuffer ErrorState Unfolding Tour

section View

variable {g : Globals} {img : Buf} {x : ℕ}

theorem fileMarks_large (hbs : g.blockSize = 1024) {inode : Inode} (hlt : inode.iSize < 2^32)
    (hsize : 65549 < g.sizeInBlocks inode) : fileMarks g img inode = [] := by
  rw [Globals.sizeInBlocks,hbs] at hsize
  simp only [fileMarks,fileBlockNum,hbs,ext2NdirBlocks,indirectMaxBlock,doubleIndirectMaxBlock,u32]
  split
  · rw [show (inode.iSize+1024+(2^32-1))%2^32/1024 = 0 by omega,List.take_zero]
  · rw [if_neg (by omega),if_neg (by omega)]

theorem DotsAre.begins {p : ℕ} (h : DotsAre g img p x) (hp1 : 1 ≤ p) (hx1 : 1 ≤ x) :
    ∃ p q es ls, g.slots img x = (p::q::es)::ls ∧ inUse p = true ∧ inUse q = true := by
  obtain ⟨o,e,o',e',es,ls,hs,rfl,rfl⟩ := h
  refine ⟨_,_,es,ls,hs,?_,?_⟩ <;> simp only [inUse,bne_iff_ne] <;> omega

section Runs

variable (hl : GroupLayout g) (hc : Consistent g img) (hp : WithinLimits g img)
include hc hp

theorem tree_owns (hx : g.InTree img x) (b : ℕ) : g.Owns img x b ↔ b ∈ g.dirBlocks img x := by
  rw [Globals.Owns,maps_small (hp.dir_size x hx),(hc.dirs x hx).blocks (hp.dir_size x hx)]
  simp only [dir_hasBlocks (hc.isDir hx),true_and,Globals.dirData,List.mem_map,List.mem_range]
  refine ⟨fun h => h.2,fun h => ⟨?_,h⟩⟩
  obtain ⟨k,hk,rfl⟩ := h
  exact (hc.dirs x hx).no_hole _ (List.mem_map_of_mem (List.mem_range.mpr hk))

theorem consistent_formed (hx : g.InTree img x) : FormedDir g img x where
  toConsistentDir := hc.dirs x hx
  num_pos := (hc.num (tree_inUseBy hx)).1
  num_le := (hc.num (tree_inUseBy hx)).2
  size_le := hp.dir_size x hx
  blocks_lt b hb := by
    rw [← (hc.dirs x hx).blocks (hp.dir_size x hx)] at hb
    exact (hc.owned x _ (Or.inl (tree_inUseBy hx)) ((tree_owns hc hp hx _).mpr hb)).2.1
  begins := by
    rcases Relation.ReflTransGen.cases_tail hx with rfl | ⟨y,hy,hk⟩
    · exact hc.root_dots.begins (by decide) (by decide)
    · exact (hc.dots y hy x hk).begins (hc.num (tree_inUseBy hy)).1 (hc.num (tree_inUseBy hx)).1

theorem consistent_seen : SeenTree g img where
  dirs _ hx := consistent_formed hc hp hx
  used_first x hx l hl := by
    obtain ⟨b,hb,rfl⟩ := List.mem_map.mp hl
    exact behindUnused_nil.mpr (hp.used_first x hx b hb)
  types := hp.types

theorem consistent_tree : DirTree g img := (consistent_seen hc hp).dirTree hc.oneParent.acyclic

theorem consistent_dotsRight {p : ℕ} (hx : g.InTree img x) (hp1 : 1 ≤ p) (hdots : DotsAre g img p x) :
    DotsRight g img p x := by
  obtain ⟨o,e,o',e',es,ls,hs,he,he'⟩ := hdots
  rw [Globals.slots,List.map_eq_cons_iff] at hs
  obtain ⟨b₀,bs,hdata,hfirst,_⟩ := hs
  have hx1 := (hc.num (tree_inUseBy hx)).1
  intro b hb n hn q hq hd
  have hplain := consistent_seen hc hp
  rw [(hplain.dirs x hx).dirBlocks_eq] at hb
  rw [(hplain.dirs x hx).block_used (hplain.used_first x hx) hb] at hq
  have hlater := hp.later x hx b
  rw [hdata] at hb hlater
  rcases List.mem_cons.mp hb with rfl | hb
  · have hin : inUse (o,e) = true ∧ inUse (o',e') = true := by
      simp only [inUse,bne_iff_ne]
      omega
    rw [hfirst,List.filter_cons_of_pos hin.1,List.filter_cons_of_pos hin.2] at hq
    obtain rfl | rfl : n = 0 ∨ n = 1 := by omega
    · obtain rfl : (o,e) = q := by simpa using hq
      exact Or.inl ⟨rfl,he⟩
    · obtain rfl : (o',e') = q := by simpa using hq
      exact Or.inr ⟨rfl,he'⟩
  · have hmem : q ∈ dots ((slotsOf (g.blockAt img b)).filter inUse) := by
      refine List.mem_filter.mpr ⟨List.mem_of_getElem? (i := n) ?_,hd⟩
      rw [List.getElem?_take_of_lt hn,hq]
    rw [hlater hb] at hmem
    cases hmem

theorem consistent_dots : DotsSettled g img where
  root := consistent_dotsRight hc hp .refl (by decide) hc.root_dots
  kids x hx k hk := by
    have hr := (consistent_seen hc hp).reach_subdirs.mp (Relation.ReflTransGen.mono
      (fun _ _ hk => pass1Kids_subdirs hk) _ _ hx)
    have hkid : k ∈ g.dirsBelow img x := (consistent_seen hc hp).subdirs_eq hr ▸ pass1Kids_subdirs hk
    exact consistent_dotsRight hc hp (hr.tail hkid) (hc.num (tree_inUseBy hr)).1 (hc.dots x hr k hkid)

theorem consistent_counted {ds : List ℕ} (hu : Unfolds (g.subdirs img) [rootInodeNum] ds) (i : ℕ) :
    (g.counted img ds).count i = g.naming img i := by
  have hplain := consistent_seen hc hp
  have htree := hplain.unfolds_iff.mp hu
  refine hplain.counted hu (htree.nodup_iff.mpr ⟨fun a ha => (hc.once a ha).2,fun a b ha hb hab y hya hyb =>
    hab (hc.oneParent.one a b y ha hb hya hyb)⟩) i

theorem consistent_links {ds : List ℕ} (hu : Unfolds (g.subdirs img) [rootInodeNum] ds) :
    LinksSettled g img ds where
  links i h1 hi := by
    have hlt : (g.inodeAt img i).iLinksCount < 2^16 := num_lt _ _ 2
    rw [consistent_counted hc hp hu i,← hc.links i h1 hi]
    exact ((charLinks_eq_iff (by omega)).mpr ⟨rfl,hp.links i h1 hi⟩).symm
  counted i h1 hi hlinks _ := by
    have hlt : (g.inodeAt img i).iLinksCount < 2^16 := num_lt _ _ 2
    have hlim := hp.links i h1 hi
    rw [consistent_counted hc hp hu i,← hc.links i h1 hi]
    omega

omit hc in
theorem special_dirBlocks (hx : g.InUseBy img x) (hs : inodeIsSpecial (g.inodeAt img x) = true) :
    g.dirBlocks img x = [] :=
  takeWhile_pointers (n := 0) (fun k hk => by omega) (hp.special x hx hs)

theorem walkKids_tree (hx : g.InTree img x) :
    g.walkKids img x = (g.children img x).map DirEntry.inode := by
  obtain ⟨hlnk,hreg⟩ := dir_not_lnk_reg (hc.isDir hx)
  rw [Globals.walkKids,hlnk,hreg,(consistent_seen hc hp).nonDot_eq hx]
  rfl

theorem walkKids_leaf (hx : g.InUseBy img x) (hd : inodeIsDir (g.inodeAt img x) = false) :
    g.walkKids img x = [] := by
  rw [Globals.walkKids]
  rcases hc.kind hx with htree | ⟨_,h | h | h⟩
  · rw [hc.isDir htree] at hd
    cases hd
  · rw [h,Bool.or_true,if_pos rfl]
  · rw [h,Bool.true_or,if_pos rfl]
  · rw [Globals.nonDot,Globals.dirEntries,special_dirBlocks hp hx h,List.map_nil]
    simp [nonDotBlocks]

theorem reach_walkKids {y : ℕ} : Reach (g.walkKids img) rootInodeNum y ↔ g.InUseBy img y := by
  constructor
  · intro hy
    induction hy with
    | refl => exact Or.inl rfl
    | @tail x z _ hk ih =>
      rcases hc.kind ih with htree | ⟨hd,_⟩
      · exact Or.inr ⟨x,htree,walkKids_tree hc hp htree ▸ hk⟩
      · rw [walkKids_leaf hc hp ih hd] at hk
        cases hk
  · have hdirs : ∀ {x}, g.InTree img x → Reach (g.walkKids img) rootInodeNum x := by
      intro x hx
      induction hx with
      | refl => exact .refl
      | tail hy hk ih =>
        exact ih.tail ((walkKids_tree hc hp hy).symm ▸ (List.mem_filter.mp hk).1)
    rintro (rfl | ⟨x,hx,hk⟩)
    · exact .refl
    · exact (hdirs hx).tail ((walkKids_tree hc hp hx).symm ▸ hk)

theorem walkKids_acyclic : Acyclic (g.walkKids img) rootInodeNum := by
  refine Acyclic.of_filter (p := fun k => inodeIsDir (g.inodeAt img k))
    (hc.oneParent.acyclic.of_sub fun y hy k hk => ?_) fun y hy hd =>
      walkKids_leaf hc hp ((reach_walkKids hc hp).mp hy) hd
  have hwalk := Relation.ReflTransGen.mono
    (fun a b (hb : b ∈ (g.walkKids img a).filter fun k => inodeIsDir (g.inodeAt img k)) =>
      (List.mem_filter.mp hb).1) _ _ hy
  obtain ⟨hk,hd⟩ := List.mem_filter.mp hk
  rcases hc.kind ((reach_walkKids hc hp).mp hwalk) with htree | ⟨hno,_⟩
  · exact List.mem_filter.mpr ⟨walkKids_tree hc hp htree ▸ hk,hd⟩
  · rw [walkKids_leaf hc hp ((reach_walkKids hc hp).mp hwalk) hno] at hk
    cases hk

theorem consistent_walkOk (hx : g.InUseBy img x) : WalkOk g img x where
  num_pos := (hc.num hx).1
  num_le := (hc.num hx).2
  dir hlnk hreg := by
    rcases hc.kind hx with htree | ⟨_,h | h | h⟩
    · exact (consistent_formed hc hp htree).dirOk
    · rw [hreg] at h
      cases h
    · rw [hlnk] at h
      cases h
    · have hnone := special_dirBlocks hp hx h
      refine ⟨(hc.num hx).1,(hc.num hx).2,?_,?_,?_⟩
      · simp [hnone]
      · simp [hnone]
      · simp [Globals.named,Globals.dirEntries,hnone]

include hl

omit hc in
theorem file_marks (hx : g.InUseBy img x) (hreg : inodeIsReg (g.inodeAt img x) = true) {b : ℕ}
    (hb : b ≠ 0) : b ∈ fileMarks g img (g.inodeAt img x) ↔ g.Owns img x b := by
  have hlt : (g.inodeAt img x).iSize < 2^32 := num_lt _ _ 4
  constructor
  · intro h
    refine ⟨reg_hasBlocks hreg,Or.inl ?_⟩
    by_cases hsize : 65549 < g.sizeInBlocks (g.inodeAt img x)
    · rw [fileMarks_large hl.block_size hlt hsize] at h
      cases h
    · exact maps_iff.mpr ⟨hb,(hp.pointers x hx hreg).names hl.block_size (by omega) h⟩
  · intro h
    have hsize := hp.files x b hx hreg h
    exact mem_fileMarks hl.block_size hsize (h.2.resolve_right (not_mapsDeep (by omega) b))

theorem consistent_fileOk (hx : g.InUseBy img x) (hreg : inodeIsReg (g.inodeAt img x) = true) :
    FileOk g img (g.inodeAt img x) := by
  intro b hb
  by_cases h0 : b = 0
  · have := hl.last_group
    omega
  · exact (hc.owned x b (Or.inl hx) ((file_marks hl hp hx hreg h0).mp hb)).2.1

theorem ownMarks_iff (hx : g.InUseBy img x) {b : ℕ} (hb : b ≠ 0) :
    b ∈ g.ownMarks img x ↔ g.Owns img x b := by
  rw [Globals.ownMarks]
  rcases hc.kind hx with htree | ⟨_,h | h | h⟩
  · obtain ⟨hlnk,hreg⟩ := dir_not_lnk_reg (hc.isDir htree)
    simp only [hlnk,hreg,Bool.false_eq_true,if_false]
    exact (tree_owns hc hp htree b).symm
  · simp only [reg_not_lnk h,h,Bool.false_eq_true,if_false,if_true]
    exact file_marks hl hp hx h hb
  · rw [if_pos h,iff_comm,iff_false_intro List.not_mem_nil,iff_false]
    intro hown
    rw [(hp.owners x b (Or.inl hx) hown).2] at h
    cases h
  · obtain ⟨hlnk,hreg,hnone⟩ := special_not h
    rw [hlnk,hreg,special_dirBlocks hp hx h]
    simp only [Bool.false_eq_true,if_false,List.not_mem_nil,false_iff]
    intro hown
    have hblocks := hown.1
    rw [hnone] at hblocks
    cases hblocks

theorem consistent_bits : BitsSettled g img where
  acyclic := walkKids_acyclic hc hp
  walk x hx := consistent_walkOk hc hp ((reach_walkKids hc hp).mp hx)
  files x hx hreg := consistent_fileOk hl hc hp ((reach_walkKids hc hp).mp hx) hreg
  tables b hb := by
    obtain ⟨h1,hlt⟩ := hl.tableBlock_lt hb
    rw [hp.place b h1 hlt,hc.bits b h1 hlt]
    refine Or.inl fun hdata => ?_
    have h₁ := (hl.tableBlock_place hb).2
    have h₂ := hdata.2.2
    omega
  data b hb := by
    have hb0 : b ≠ 0 := Nat.one_le_iff_ne_zero.mp hb.1
    rw [hp.place b hb.1 hb.2.1,hc.bits b hb.1 hb.2.1]
    constructor
    · rintro (hno | ⟨x,hx,hown⟩)
      · exact absurd hb hno
      · have hin := (hp.owners x b hx hown).1
        exact ⟨x,(reach_walkKids hc hp).mpr hin,(ownMarks_iff hl hc hp hin hb0).mpr hown⟩
    · rintro ⟨x,hx,hmark⟩
      have hin := (reach_walkKids hc hp).mp hx
      exact Or.inr ⟨x,Or.inl hin,(ownMarks_iff hl hc hp hin hb0).mp hmark⟩

theorem consistent_settled : Settled g img where
  tree := consistent_tree hc hp
  dots := consistent_dots hc hp
  links _ hu := consistent_links hc hp hu
  bits := consistent_bits hl hc hp

end Runs

end View

/-- A run on a partition with a consistent file system, within the limits of the program, leaves every
byte of the disk as it was. -/
theorem correctOnePartition_consistent {g : Globals} {d : Device} {e : PartitionEntry} {i : ℤ}
    {stack : ℕ → Byte} {old : PartitionEntry}
    (hread : ∃ n, ∀ fuel, n ≤ fuel → (readPartitionInfo stack fuel old i).run d = .ok e d)
    (htype : e.type = ext2Fs) (hload : (loadGlobals e).run d = .ok g d) (hl : GroupLayout g)
    (hf : g.Fits d.image) (hc : Consistent g d.image) (hp : WithinLimits g d.image) :
    ∃ n, ∀ fuel, n ≤ fuel → ∃ d', (correctOnePartition stack fuel old i).run d = .ok (none,e) d' ∧
      d'.image = d.image := by
  obtain ⟨n,hn⟩ := hread
  obtain ⟨m,hm⟩ := (consistent_settled hl hc hp).passes_run hl hf
  refine ⟨n+m,fun fuel hfuel => ?_⟩
  obtain ⟨d',hrun,him⟩ := hm fuel (by omega) d rfl
  exact ⟨d',correctOne_ext2 (hn fuel (by omega)) htype (by rw [bind_ok hload,hrun]),him⟩

/-- A disk with one partition, of one group with 16 inodes and 16 blocks. -/
def smallDisk (ps : List (ℕ × ℕ × (ℕ → ℕ))) : Buf := exampleImage 16 (ps ++ [
  entryPiece 0 446 0x83 1 32,
  blockPiece 1 0 (littleEndian 16 4 ++ littleEndian 16 4 ++ List.replicate 12 0 ++ littleEndian 1 4 ++
    List.replicate 8 0 ++ littleEndian 8192 4 ++ littleEndian 8192 4 ++ littleEndian 16 4),
  blockPiece 2 0 (littleEndian 3 4 ++ littleEndian 4 4 ++ littleEndian 5 4)])

/-- A directory, a file and a symbolic link in the root directory. -/
def cleanDisk : Buf := smallDisk [
  blockPiece 3 0 [0xFF,0x01], blockPiece 4 0 [0x02,0x1C],
  inodePiece 2 (inodeBytes 0x41ED 1024 3 [7]),
  inodePiece 11 (inodeBytes 0x41C0 1024 2 [8]),
  inodePiece 12 (inodeBytes 0x81A4 5 1 [9]),
  inodePiece 13 (inodeBytes 0xA1FF 4 1 [0x74696E69]),
  blockPiece 7 0 (entryBytes 2 12 2 [46]),
  blockPiece 7 12 (entryBytes 2 12 2 [46,46]),
  blockPiece 7 24 (entryBytes 11 20 2 [108,111,115,116,43,102,111,117,110,100]),
  blockPiece 7 44 (entryBytes 12 12 1 [102,105,108,101]),
  blockPiece 7 56 (entryBytes 13 968 7 [108,105,110,107]),
  blockPiece 8 0 (entryBytes 11 12 2 [46]),
  blockPiece 8 12 (entryBytes 2 1012 2 [46,46]),
  blockPiece 9 0 [104,101,108,108,111]]

def cleanGlobals : Globals := smallGlobals ⟨ext2Fs,1,32⟩ cleanDisk

theorem clean_layout : GroupLayout cleanGlobals := by decide +kernel

theorem clean_tree : SmallTree cleanGlobals cleanDisk [2,11] where
  unfolds := unfolds_of_unfoldFrom (n := 2) (by decide +kernel)
  nodup := by decide
  num_le := by decide +kernel
  root_dir := by decide +kernel
  small := by decide +kernel
  no_hole := by decide +kernel
  whole := by decide +kernel
  names_le := by decide +kernel
  ends := by decide +kernel
  kinds := by decide +kernel
  root_dots := by decide +kernel
  dots := by decide +kernel
  once := by decide +kernel
  allocated := by decide +kernel
  links := by decide +kernel
  owned := by decide +kernel
  owner := by decide +kernel
  bits := by decide +kernel

theorem clean_within : WithinLimits cleanGlobals cleanDisk where
  types x hx := (show ∀ x ∈ [2,11], ∀ e ∈ cleanGlobals.children cleanDisk x,
    dirIsDir e = inodeIsDir (cleanGlobals.inodeAt cleanDisk e.inode) by decide +kernel) x
      (clean_tree.inTree_iff.mp hx)
  used_first x hx := (show ∀ x ∈ [2,11], ∀ b ∈ cleanGlobals.dirData cleanDisk x,
    (slotsOf (cleanGlobals.blockAt cleanDisk b)).Pairwise fun p q => inUse p = false → inUse q = false by
      decide +kernel) x (clean_tree.inTree_iff.mp hx)
  dir_size x hx := clean_tree.small x (clean_tree.used_iff.mp (Or.inl (tree_inUseBy hx)))
  later x hx := (show ∀ x ∈ [2,11], ∀ b ∈ (cleanGlobals.dirData cleanDisk x).tail,
    dots ((slotsOf (cleanGlobals.blockAt cleanDisk b)).filter inUse) = [] by decide +kernel) x
      (clean_tree.inTree_iff.mp hx)
  links i h1 hi := Or.inl ((show ∀ i < 17, (cleanGlobals.inodeAt cleanDisk i).iLinksCount ≤ 127 by
    decide +kernel) i (Nat.lt_succ_of_le hi))
  place b h1 hb := bitAt_flatBitmap clean_layout (by decide +kernel) h1 hb
  owners x b hx hown := by
    rw [clean_tree.used_iff] at hx
    rw [clean_tree.owns_iff hx] at hown
    rw [clean_tree.inUseBy_iff]
    exact (show ∀ x ∈ cleanGlobals.usedIn cleanDisk [2,11], ∀ b ∈ cleanGlobals.ownBlocks cleanDisk x,
      cleanGlobals.NamedIn cleanDisk [2,11] x ∧ inodeIsLnk (cleanGlobals.inodeAt cleanDisk x) = false by
        decide +kernel) x hx b hown
  files x b hx hreg hown := (clean_tree.small x (clean_tree.used_iff.mp (Or.inl hx))).trans (by decide)
  pointers x hx hreg := by
    have hsmall := clean_tree.small x (clean_tree.used_iff.mp (Or.inl hx))
    exact ⟨fun h => by omega,fun h => by omega,fun j h => by omega⟩
  special x hx hs := by
    have hmem := clean_tree.used_iff.mp (Or.inl hx)
    rw [(show ∀ x ∈ cleanGlobals.usedIn cleanDisk [2,11],
      inodeIsSpecial (cleanGlobals.inodeAt cleanDisk x) = false by decide +kernel) x hmem] at hs
    cases hs

theorem correctOnePartition_consistent_clean : ∃ n, ∀ fuel, n ≤ fuel → ∃ d',
    (correctOnePartition (fun _ => 0) fuel ⟨0,0,0⟩ 1).run ⟨cleanDisk,[]⟩ = .ok (none,⟨ext2Fs,1,32⟩) d' ∧
      d'.image = cleanDisk := by
  have hentry : entryOf cleanDisk 0 firstPartitionOffset = ⟨ext2Fs,1,32⟩ := by decide +kernel
  exact correctOnePartition_consistent
    ⟨0,fun fuel _ => by rw [readPartitionInfo_one (by decide +kernel),hentry]⟩ rfl
    (loadGlobals_small (by decide +kernel) (by decide +kernel)) clean_layout (by decide +kernel)
    clean_tree.consistent clean_within

/-- The second block of the root directory begins with an unused entry, behind which file 12 has its
name. -/
def deletedDisk : Buf := smallDisk [
  blockPiece 3 0 [0xFF,0x01], blockPiece 4 0 [0x02,0x0C],
  inodePiece 2 (inodeBytes 0x41ED 2048 3 [7,8]),
  inodePiece 11 (inodeBytes 0x41C0 1024 2 [9]),
  inodePiece 12 (inodeBytes 0x81A4 0 1 []),
  blockPiece 7 0 (entryBytes 2 12 2 [46]),
  blockPiece 7 12 (entryBytes 2 12 2 [46,46]),
  blockPiece 7 24 (entryBytes 11 1000 2 [108,111,115,116,43,102,111,117,110,100]),
  blockPiece 8 0 (entryBytes 0 12 0 []),
  blockPiece 8 12 (entryBytes 12 1012 1 [102,105,108,101]),
  blockPiece 9 0 (entryBytes 11 12 2 [46]),
  blockPiece 9 12 (entryBytes 2 1012 2 [46,46])]

def deletedGlobals : Globals := smallGlobals ⟨ext2Fs,1,32⟩ deletedDisk

theorem deleted_tree : SmallTree deletedGlobals deletedDisk [2,11] where
  unfolds := unfolds_of_unfoldFrom (n := 2) (by decide +kernel)
  nodup := by decide
  num_le := by decide +kernel
  root_dir := by decide +kernel
  small := by decide +kernel
  no_hole := by decide +kernel
  whole := by decide +kernel
  names_le := by decide +kernel
  ends := by decide +kernel
  kinds := by decide +kernel
  root_dots := by decide +kernel
  dots := by decide +kernel
  once := by decide +kernel
  allocated := by decide +kernel
  links := by decide +kernel
  owned := by decide +kernel
  owner := by decide +kernel
  bits := by decide +kernel

/-- Its file system is consistent, and file 12 gets a second name in `lost+found` all the same. -/
theorem correctOnePartition_deleted : ∃ g d',
    (∀ fuel, (readPartitionInfo (fun _ => 0) fuel ⟨0,0,0⟩ 1).run ⟨deletedDisk,[]⟩ =
      .ok ⟨ext2Fs,1,32⟩ ⟨deletedDisk,[]⟩) ∧
    (loadGlobals ⟨ext2Fs,1,32⟩).run ⟨deletedDisk,[]⟩ = .ok g ⟨deletedDisk,[]⟩ ∧
    GroupLayout g ∧ g.Fits deletedDisk ∧ Consistent g deletedDisk ∧
    g.usedNames deletedDisk 11 = [11,2] ∧
    (correctOnePartition (fun _ => 0) 10 ⟨0,0,0⟩ 1).run ⟨deletedDisk,[]⟩ = .ok (none,⟨ext2Fs,1,32⟩) d' ∧
    g.usedNames d'.image 11 = [11,2,12] ∧ d'.image ≠ deletedDisk := by
  have hnames : deletedGlobals.usedNames deletedDisk 11 = [11,2] := by decide +kernel
  have hentry : entryOf deletedDisk 0 firstPartitionOffset = ⟨ext2Fs,1,32⟩ := by decide +kernel
  obtain ⟨⟨r,e⟩,d',hrun,hend⟩ := exists_of_endsIn (show endsIn
    (correctOnePartition (fun _ => 0) 10 ⟨0,0,0⟩ 1) ⟨deletedDisk,[]⟩ (fun r d =>
      decide (r = (none,⟨ext2Fs,1,32⟩) ∧ deletedGlobals.usedNames d.image 11 = [11,2,12])) = true by
        decide +kernel)
  obtain ⟨hr,hlast⟩ := of_decide_eq_true hend
  refine ⟨deletedGlobals,d',fun fuel => ?_,loadGlobals_small (by decide +kernel) (by decide +kernel),
    by decide +kernel,by decide +kernel,deleted_tree.consistent,hnames,hr ▸ hrun,hlast,fun him => ?_⟩
  · rw [readPartitionInfo_one (by decide +kernel),hentry]
  · rw [him,hnames] at hlast
    cases hlast

end MyFsck
