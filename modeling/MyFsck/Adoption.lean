import MyFsck.Links
import MyFsck.BlockScan
import MyFsck.PassOrder

/-! One call of `add_to_lost_found`: when the entry is found afterwards, and what is written when it
is not. -/
namespace MyFsck

open ByteBuffer ErrorState Buf

/-- The bytes an entry needs for itself. -/
def ownSize (e : DirEntry) : ℕ := if e.inode = 0 then 0 else padTo4Bytes (8+e.nameLen)

/-- One of the entries of the block, used or unused, has `n` bytes to spare. -/
def HasSpace (b : Buf) (n : ℕ) : Prop :=
  ∃ slots, Slots b 0 slots ∧ ∃ p ∈ slots, ownSize p.2+n ≤ p.2.recLen

theorem LiveBlock.hasSpace {b : Buf} {entry : Option DirEntry} {e new : DirEntry} (h : LiveBlock b)
    {slots : List (ℕ × DirEntry)} (hslots : Slots b 0 slots) (hb : 0 < b.size)
    (he : tailEntry b entry = some e) (ht : Takes new b e) : HasSpace b new.recLen := by
  obtain ⟨init,hinit⟩ := h.tail hb he
  have hseg := h.segment
  rw [hinit] at hseg
  obtain ⟨-,heq,hn,-,hend⟩ := hseg.snoc_inv
  dsimp only at heq hn hend
  have hmem : (tailOffset b,e) ∈ slots := by
    refine (List.takeWhile_sublist inUse).subset ?_
    rw [← hslots.chain.wellFormed.1,hinit]
    simp
  have hinode : e.inode ≠ 0 := by
    rw [heq]
    exact hn
  refine ⟨slots,hslots,_,hmem,?_⟩
  unfold Takes at ht
  dsimp only
  rw [ownSize,if_neg hinode]
  omega

section Reparent

variable {g : Globals} {d : Device} {img : Buf}

/-- The end of `add_to_lost_found`. -/
def reparent (g : Globals) (first L : ℕ) : Fsck (Option ℤ) := do
  let dir_block ← g.block first
  let dir_block ← inBounds (writeNumberIntoBlock dir_block firstEntryLen L 4)
  g.write first dir_block 0
  pure none

/-- The image after the word behind the first twelve bytes of a block was overwritten. -/
def reparented (g : Globals) (first L : ℕ) (img : Buf) : Buf :=
  img.patch (g.areaOffset first) ((img.slice (g.areaOffset first) g.blockSize).putNum firstEntryLen L 4)

theorem Geometry.firstEntry_le (hg : Geometry g) : firstEntryLen+4 ≤ g.blockSize := by
  have hle := Nat.le_of_dvd hg.block_pos hg.sector_dvd
  simp only [sectorSizeBytes] at hle
  simp only [firstEntryLen]
  omega

theorem reparent_run (hg : Geometry g) {first : ℕ} (L : ℕ)
    (hin : g.areaOffset first+g.blockSize ≤ d.image.size) :
    (reparent g first L).run d =
      .ok none ⟨reparented g first L d.image,d.out ++ writeEvents g first⟩ := by
  have hsize : ((d.image.slice (g.areaOffset first) g.blockSize).putNum firstEntryLen L 4).size =
      g.blockSize := by rw [putNum_size,slice_size]
  unfold reparent
  rw [bind_ok (block_area_run hg.sector_dvd hin),
    writeNumberIntoBlock_eq (by rw [slice_size]; exact hg.firstEntry_le),bind_ok (inBounds_some _ d),
    bind_ok (write_area_run hg.sector_dvd (by omega)),slice_whole hsize]
  rfl

theorem reparent_stops (hg : Geometry g) {first : ℕ} (L : ℕ)
    (hin : ¬ g.areaOffset first+g.blockSize ≤ d.image.size) :
    (reparent g first L).run d = .error .exit d := by
  unfold reparent
  rw [bind_error (block_area_stops hg.sector_dvd hin)]

theorem blockAt_reparented (hg : Geometry g) {first c : ℕ} (L : ℕ) (hc : c ≤ g.superBlock.sBlocksCount)
    (hapart : g.Apart first c) : g.blockAt (reparented g first L img) c = g.blockAt img c := by
  have harea : g.areaOffset c = g.blockOffset c := hg.sizes.areaOffset_eq hc
  have hpos := hg.block_pos
  refine slice_patch_disjoint ?_
  rw [putNum_size,slice_size]
  by_contra hno
  refine hapart (max (g.areaOffset first) (g.areaOffset c)) ?_ ?_
  all_goals
    unfold Globals.InArea
    rw [hg.sizes.sector_mul]
    omega

theorem reparented_size {first L : ℕ} (hin : g.areaOffset first+g.blockSize ≤ img.size) :
    (reparented g first L img).size = img.size :=
  patch_size_of_le (by simpa using hin)

theorem num_reparented (hg : Geometry g) {first L : ℕ} (hL : L < 2^32)
    (hb : first ≤ g.superBlock.sBlocksCount) :
    num (g.blockAt (reparented g first L img) first).byte firstEntryLen 4 = L := by
  have harea : g.areaOffset first = g.blockOffset first := hg.sizes.areaOffset_eq hb
  unfold Globals.blockAt reparented
  rw [harea,slice_patch_self (by simp),num_putNum (by rw [slice_size]; exact hg.firstEntry_le)]
  exact Nat.mod_eq_of_lt (by norm_num at hL ⊢; exact hL)

end Reparent

section Parts

variable {g : Globals} {d d₁ : Device} {L i : ℕ}

/-- The first pointer of an inode. -/
def Globals.firstPtr (g : Globals) (img : Buf) (i : ℕ) : ℕ := (g.inodeAt img i).iBlock.getD 0 0

theorem addToLostFound_placed (hg : Geometry g) (hf : g.Fits d.image)
    (hroot : DirOk g d.image rootInodeNum) (hne : g.dirBlocks d.image rootInodeNum ≠ [])
    (hL : g.lostFound d.image = some L) (hok : DirOk g d.image L) (h1 : 1 ≤ i)
    (hi : i ≤ g.superBlock.sInodesCount)
    (hplace : (placeEntry g (g.newEntry d.image i) (g.inodeAt d.image L).iBlock none).run d = .ok () d₁)
    (hf₁ : g.Fits d₁.image) (hinode : g.inodeAt d₁.image i = g.inodeAt d.image i) :
    (addToLostFound g i).run d = (reparent g (g.firstPtr d.image i) L).run d₁ := by
  obtain ⟨e,hsearch,he⟩ := searchDirEntry_run hg hf hroot hne
  rw [hL] at he
  cases e with
  | none => cases he
  | some e =>
    have heL : e.inode = L := by simpa using he
    unfold addToLostFound
    rw [bind_ok (readInode_run hg hf hroot.num_pos hroot.num_le),bind_ok hsearch]
    dsimp only
    rw [heL,bind_ok (readInode_run hg hf hok.num_pos hok.num_le),
      bind_ok (createNewEntry_run hg hf h1 hi),bind_ok hplace,
      bind_ok (readInode_run hg hf₁ h1 hi),hinode]
    rfl

theorem addToLostFound_stops (hg : Geometry g) (hf : g.Fits d.image)
    (hroot : DirOk g d.image rootInodeNum) (hne : g.dirBlocks d.image rootInodeNum ≠ [])
    (hL : g.lostFound d.image = some L) (hok : DirOk g d.image L) (h1 : 1 ≤ i)
    (hi : i ≤ g.superBlock.sInodesCount) {e : Fault}
    (hplace : (placeEntry g (g.newEntry d.image i) (g.inodeAt d.image L).iBlock none).run d = .error e d₁) :
    (addToLostFound g i).run d = .error e d₁ := by
  obtain ⟨entry,hsearch,he⟩ := searchDirEntry_run hg hf hroot hne
  rw [hL] at he
  cases entry with
  | none => cases he
  | some entry =>
    have heL : entry.inode = L := by simpa using he
    unfold addToLostFound
    rw [bind_ok (readInode_run hg hf hroot.num_pos hroot.num_le),bind_ok hsearch]
    dsimp only
    rw [heL,bind_ok (readInode_run hg hf hok.num_pos hok.num_le),
      bind_ok (createNewEntry_run hg hf h1 hi),bind_error hplace]

end Parts

section Call

/-- A directory `L` and an inode `i` whose first block, which the program overwrites whatever kind of
inode it is, is none of the directory's. -/
structure Adoptable (g : Globals) (img : Buf) (L i : ℕ) : Prop where
  dir : DirOk g img L
  slots : ∀ b ∈ g.dirBlocks img L, ∃ slots, Slots (g.blockAt img b) 0 slots
  tables : ∀ b ∈ g.dirBlocks img L, b ≠ g.inodeBlock L ∧ b ≠ g.inodeBlock i
  apart : ∀ c ∈ g.inodeBlock L :: g.dirBlocks img L, g.Apart (g.firstPtr img i) c
  first_lt : inodeIsDir (g.inodeAt img i) = true → g.firstPtr img i < g.superBlock.sBlocksCount

/-- Some block of the directory `L` can take the entry for inode `i`. -/
def CanTake (g : Globals) (img : Buf) (L i : ℕ) : Prop :=
  ∃ b ∈ g.dirBlocks img L, HasSpace (g.blockAt img b) (g.newEntry img i).recLen

/-- The entry stands in the directory where the scans find it. -/
def Globals.Holds (g : Globals) (img : Buf) (L : ℕ) (new : DirEntry) : Prop :=
  ∃ b ∈ g.dirBlocks img L, ∃ p ∈ entriesOf (g.blockAt img b), p.2.inode = new.inode ∧
    p.2.nameLen = new.nameLen ∧ p.2.fileType = new.fileType ∧ p.2.name = new.name

/-- Without a place for the inode the call gives -1 and leaves the image as it was; else the new entry
is on the disk, and the `..` of a directory names `lost+found`. The first entry of a directory takes 12
bytes, so that its `..` is the word at byte 12 of the first block. -/
structure Atomic (g : Globals) (d : Device) (i : ℕ) : Prop where
  failure : (∀ L, g.lostFound d.image = some L → ¬ CanTake g d.image L i) →
    ∃ d', (addToLostFound g i).run d = .ok (some (-1)) d' ∧ d'.image = d.image
  success : ∀ L, g.lostFound d.image = some L → CanTake g d.image L i →
    ∃ r d', (addToLostFound g i).run d = .ok r d' ∧ g.Holds d'.image L (g.newEntry d.image i) ∧
      (inodeIsDir (g.inodeAt d.image i) = true →
        num (g.blockAt d'.image (g.firstPtr d.image i)).byte firstEntryLen 4 = L)

/-- The first block of `lost+found` that passes the program's test has no unused entry, and the
orphan's first block can be read. -/
def FirstFitLive (g : Globals) (img : Buf) (L i : ℕ) : Prop :=
  (∃ b, g.firstFit img (g.newEntry img i) (g.dirBlocks img L) none = some b ∧
    LiveBlock (g.blockAt img b)) ∧ g.areaOffset (g.firstPtr img i)+g.blockSize ≤ img.size

variable {g : Globals} {img img' : Buf} {L i : ℕ}

theorem dirBlocks_sameInode (h : g.blockAt img' (g.inodeBlock L) = g.blockAt img (g.inodeBlock L)) :
    g.dirBlocks img' L = g.dirBlocks img L := by
  rw [Globals.dirBlocks,Globals.inodeAt,h,Globals.dirBlocks,Globals.inodeAt]

theorem Adoptable.reparented_dir (ho : Adoptable g img L i) (hg : Geometry g)
    (h : g.blockAt img' (g.inodeBlock L) = g.blockAt img (g.inodeBlock L)) :
    g.dirBlocks (reparented g (g.firstPtr img i) L img') L = g.dirBlocks img L ∧
      ∀ b ∈ g.dirBlocks img L,
        g.blockAt (reparented g (g.firstPtr img i) L img') b = g.blockAt img' b := by
  have hlt := (hg.inodeBlock_lt ho.dir.num_pos ho.dir.num_le).2
  refine ⟨dirBlocks_sameInode ?_,fun b hb => ?_⟩
  · rw [blockAt_reparented hg L hlt.le (ho.apart _ (by simp)),h]
  · exact blockAt_reparented hg L (ho.dir.blocks_lt b hb).le (ho.apart b (by simp [hb]))

theorem Extended.found {new : DirEntry} {b b' : Buf} (h : Extended new b b') :
    ∃ p ∈ entriesOf b', p.2.inode = new.inode ∧ p.2.nameLen = new.nameLen ∧
      p.2.fileType = new.fileType ∧ p.2.name = new.name := by
  obtain ⟨init,o,e,-,-,-,hent⟩ := h
  rw [hent]
  exact ⟨_,List.mem_append_right _ (List.mem_cons_of_mem _ List.mem_cons_self),rfl,rfl,rfl,rfl⟩

theorem not_holds (hun : i ∉ g.named img L) (hblocks : g.dirBlocks img' L = g.dirBlocks img L)
    (h : ∀ b ∈ g.dirBlocks img L, entriesOf (g.blockAt img' b) = entriesOf (g.blockAt img b)) :
    ¬ g.Holds img' L (g.newEntry img i) := by
  rintro ⟨b,hb,p,hp,hinode,-⟩
  rw [hblocks] at hb
  rw [h b hb] at hp
  have hmem := mem_named hb hp
  rw [hinode] at hmem
  exact hun hmem

theorem not_atomic {d : Device} (hL : g.lostFound d.image = some L)
    (h : ∀ r d', (addToLostFound g i).run d = .ok r d' →
      r = none ∧ ¬ g.Holds d'.image L (g.newEntry d.image i)) : ¬ Atomic g d i := by
  intro ha
  by_cases hcan : CanTake g d.image L i
  · obtain ⟨r,d',hrun,hholds,-⟩ := ha.success L hL hcan
    exact (h r d' hrun).2 hholds
  · obtain ⟨d',hrun,-⟩ := ha.failure fun L' hL' => by
      rw [hL] at hL'
      cases hL'
      exact hcan
    have hnone := (h _ d' hrun).1
    cases hnone

theorem reparent_ok (hg : Geometry g) {d d' : Device} {first : ℕ} {r : Option ℤ}
    (h : (reparent g first L).run d = .ok r d') :
    r = none ∧ d'.image = reparented g first L d.image := by
  by_cases hin : g.areaOffset first+g.blockSize ≤ d.image.size
  · rw [reparent_run hg L hin] at h
    cases h
    exact ⟨rfl,rfl⟩
  · rw [reparent_stops hg L hin] at h
    cases h

variable {d : Device} (hg : Geometry g) (hbs : g.blockSize < 2^16) (hf : g.Fits d.image)
  (hroot : DirOk g d.image rootInodeNum) (hne : g.dirBlocks d.image rootInodeNum ≠ [])
  (hL : g.lostFound d.image = some L) (ho : Adoptable g d.image L i) (h1 : 1 ≤ i)
  (hi : i ≤ g.superBlock.sInodesCount)
include hg hbs hf hroot hne hL ho h1 hi

theorem Adoptable.fits_run {b : ℕ}
    (hfit : g.firstFit d.image (g.newEntry d.image i) (g.dirBlocks d.image L) none = some b) :
    b ∈ g.dirBlocks d.image L ∧ ∃ blk d₁, blk.size = g.blockSize ∧
      d₁.image = g.setBlock d.image b blk ∧
      (addToLostFound g i).run d = (reparent g (g.firstPtr d.image i) L).run d₁ ∧
      (LiveBlock (g.blockAt d.image b) → Extended (g.newEntry d.image i) (g.blockAt d.image b) blk ∧
        CanTake g d.image L i) ∧
      (¬ LiveBlock (g.blockAt d.image b) → entriesOf blk = entriesOf (g.blockAt d.image b)) := by
  have hlt := hg.inodesCount_lt
  have hnew := @newEntry_fits g d.image i h1 (by omega)
  obtain ⟨hmem,e,last,he,ht,hplace⟩ := placeEntry_fits hg hf hnew (g.inodeAt d.image L).iBlock none
    (fun c hc => ⟨ho.dir.blocks_lt c hc,ho.dir.wellFormed c hc⟩) hfit
  have hb := ho.dir.blocks_lt b hmem
  have hpos : 0 < (g.blockAt d.image b).size := hg.block_pos
  have hsize : (putEntry (g.newEntry d.image i) (g.blockAt d.image b) e).size = g.blockSize :=
    insertEntry_size
  have hinode : g.inodeAt (g.setBlock d.image b (putEntry (g.newEntry d.image i)
      (g.blockAt d.image b) e)) i = g.inodeAt d.image i :=
    inodeAt_setBlock_ne hg hsize (ho.tables b hmem).2
  obtain ⟨slots,hslots⟩ := ho.slots b hmem
  refine ⟨hmem,_,_,hsize,rfl,addToLostFound_placed hg hf hroot hne hL ho.dir h1 hi hplace
    (setBlock_fits hg.sizes hf hb hsize) hinode,fun hlive => ⟨?_,b,hmem,hlive.hasSpace hslots hpos he ht⟩,
    fun hlive => ?_⟩
  · exact putEntry_live hnew hbs hlive hpos he ht
  · exact (putEntry_unused (ho.dir.wellFormed b hmem) hlive hpos he).2

theorem Adoptable.firstFitLive_of_atomic (hun : i ∉ g.named d.image L) (ha : Atomic g d i) : FirstFitLive g d.image L i := by
  by_contra hno
  refine not_atomic hL (fun r d' hrun => ?_) ha
  cases hfit : g.firstFit d.image (g.newEntry d.image i) (g.dirBlocks d.image L) none with
  | none =>
    have hlt := hg.inodesCount_lt
    rcases placeEntry_full hg hf (@newEntry_fits g d.image i h1 (by omega)) (g.inodeAt d.image L).iBlock
      none (fun c hc => ⟨ho.dir.blocks_lt c hc,ho.dir.wellFormed c hc⟩) hfit with hplace | ⟨hplace,-⟩
    · rw [addToLostFound_placed hg hf hroot hne hL ho.dir h1 hi hplace hf rfl] at hrun
      obtain ⟨hr,him⟩ := reparent_ok hg hrun
      obtain ⟨hblocks,hsame⟩ := @Adoptable.reparented_dir g d.image d.image L i ho hg rfl
      rw [him]
      exact ⟨hr,not_holds hun hblocks fun b hb => by rw [hsame b hb]⟩
    · rw [addToLostFound_stops hg hf hroot hne hL ho.dir h1 hi hplace] at hrun
      cases hrun
  | some b =>
    obtain ⟨hmem,blk,d₁,hsize,him₁,hcall,hlive,hunused⟩ :=
      ho.fits_run hg hbs hf hroot hne hL h1 hi hfit
    rw [hcall] at hrun
    have hb := ho.dir.blocks_lt b hmem
    have htable : g.blockAt d₁.image (g.inodeBlock L) = g.blockAt d.image (g.inodeBlock L) := by
      rw [him₁]
      exact blockAt_setBlock_ne hg.sizes hsize (ho.tables b hmem).1.symm
    by_cases hlb : LiveBlock (g.blockAt d.image b)
    · have hout : ¬ g.areaOffset (g.firstPtr d.image i)+g.blockSize ≤ d₁.image.size := by
        rw [him₁,setBlock_size hg.sizes hf hb hsize]
        exact fun hin => hno ⟨⟨b,hfit,hlb⟩,hin⟩
      rw [reparent_stops hg L hout] at hrun
      cases hrun
    · obtain ⟨hr,him⟩ := reparent_ok hg hrun
      obtain ⟨hblocks,hsame⟩ := ho.reparented_dir hg htable
      rw [him]
      refine ⟨hr,not_holds hun hblocks fun c hc => ?_⟩
      rw [hsame c hc,him₁]
      by_cases hcb : c = b
      · rw [hcb,blockAt_setBlock_self hsize,hunused hlb]
      · rw [blockAt_setBlock_ne hg.sizes hsize hcb]

theorem Adoptable.atomic_of_firstFitLive (h : FirstFitLive g d.image L i) : Atomic g d i := by
  obtain ⟨⟨b,hfit,hlb⟩,hin⟩ := h
  obtain ⟨hmem,blk,d₁,hsize,him₁,hcall,hlive,-⟩ := ho.fits_run hg hbs hf hroot hne hL h1 hi hfit
  obtain ⟨hext,hcan⟩ := hlive hlb
  have hb := ho.dir.blocks_lt b hmem
  have htable : g.blockAt d₁.image (g.inodeBlock L) = g.blockAt d.image (g.inodeBlock L) := by
    rw [him₁]
    exact blockAt_setBlock_ne hg.sizes hsize (ho.tables b hmem).1.symm
  refine ⟨fun hno => absurd hcan (hno L hL),fun L' hL' _ => ?_⟩
  rw [hL] at hL'
  cases hL'
  have hin₁ : g.areaOffset (g.firstPtr d.image i)+g.blockSize ≤ d₁.image.size := by
    rw [him₁,setBlock_size hg.sizes hf hb hsize]
    exact hin
  obtain ⟨hblocks,hsame⟩ := ho.reparented_dir hg htable
  refine ⟨none,_,hcall.trans (reparent_run hg L hin₁),?_,fun hdir => ?_⟩
  · refine ⟨b,by rw [hblocks]; exact hmem,?_⟩
    rw [hsame b hmem,him₁,blockAt_setBlock_self hsize]
    exact hext.found
  · have hlt := hg.inodesCount_lt
    have hle := ho.dir.num_le
    exact num_reparented hg (by omega) (ho.first_lt hdir).le

end Call

/-- A call is atomic exactly if there is no `lost+found`, or the first of its blocks that passes the
program's test has no unused entry. -/
theorem addToLostFound_atomic_iff {g : Globals} {d : Device} {i : ℕ} (hg : Geometry g)
    (hbs : g.blockSize < 2^16) (hf : g.Fits d.image) (hroot : DirOk g d.image rootInodeNum)
    (hne : g.dirBlocks d.image rootInodeNum ≠ []) (h1 : 1 ≤ i) (hi : i ≤ g.superBlock.sInodesCount)
    (ho : ∀ L, g.lostFound d.image = some L → Adoptable g d.image L i ∧ i ∉ g.named d.image L) :
    Atomic g d i ↔ g.lostFound d.image = none ∨
      ∃ L, g.lostFound d.image = some L ∧ FirstFitLive g d.image L i := by
  cases hL : g.lostFound d.image with
  | none =>
    obtain ⟨d',hrun,him,-⟩ := addToLostFound_none hg hf hroot hne hL i
    refine iff_of_true ⟨fun _ => ⟨d',hrun,him⟩,fun L hL' => ?_⟩ (Or.inl rfl)
    rw [hL] at hL'
    cases hL'
  | some L =>
    constructor
    · intro ha
      exact Or.inr ⟨L,rfl,(ho L hL).1.firstFitLive_of_atomic hg hbs hf hroot hne hL h1 hi
        (ho L hL).2 ha⟩
    · rintro (h | ⟨L',h,hlive⟩)
      · cases h
      · cases h
        exact (ho L hL).1.atomic_of_firstFitLive hg hbs hf hroot hne hL h1 hi hlive

/-- The head of an entry whose name has `name_len` letters. -/
def longEntry (off rec_len name_len : ℕ) : List (ℕ × ℕ × (ℕ → ℕ)) :=
  [blockPiece 8 off (littleEndian 12 4 ++ littleEndian rec_len 2 ++ [name_len,1]),
    (512+1024*8+off+8,name_len,fun _ => 97)]

/-- A `lost+found` (inode 11, block 8) whose last name has `name_len` letters, and a directory (inode
13, block 9) that nothing names. With 200 letters the block is full up to its end. -/
def packedImage (name_len : ℕ) : Buf := exampleImage 16 ([
  inodePiece 2 (inodeBytes 0x41ED 1024 2 [7]), inodePiece 11 (inodeBytes 0x41C0 1024 2 [8]),
  inodePiece 13 (inodeBytes 0x41ED 1024 2 [9]),
  blockPiece 7 0 (dirBytes 2 2 (entryBytes 11 1000 2
    [108,111,115,116,43,102,111,117,110,100])),
  blockPiece 8 0 (entryBytes 11 12 2 [46,0,0,0]), blockPiece 8 12 (entryBytes 2 12 2 [46,46,0,0]),
  blockPiece 9 0 (dirBytes 13 12 [])] ++
  longEntry 24 264 255 ++ longEntry 288 264 255 ++ longEntry 552 264 255 ++ longEntry 816 208 name_len)

def fullImage : Buf := packedImage 200

theorem full_slots : Slots ((exampleGlobals 16).blockAt fullImage 8) 0
    ([0,12,24,288,552,816].map fun off => (off,entryAt ((exampleGlobals 16).blockAt fullImage 8) off)) :=
  @Slots.of_len _ _ 12 _ (by decide +kernel) (by decide +kernel)
    (@Slots.of_len _ _ 12 _ (by decide +kernel) (by decide +kernel)
      (@Slots.of_len _ _ 264 _ (by decide +kernel) (by decide +kernel)
        (@Slots.of_len _ _ 264 _ (by decide +kernel) (by decide +kernel)
          (@Slots.of_len _ _ 264 _ (by decide +kernel) (by decide +kernel)
            (@Slots.of_len _ _ 208 _ (by decide +kernel) (by decide +kernel) .done)))))

theorem full_layout : Geometry (exampleGlobals 16) ∧ (exampleGlobals 16).Fits fullImage := by decide

theorem full_dirs : (exampleGlobals 16).lostFound fullImage = some 11 ∧
    (exampleGlobals 16).dirBlocks fullImage 11 = [8] ∧ DirOk (exampleGlobals 16) fullImage 11 ∧
    DirOk (exampleGlobals 16) fullImage rootInodeNum ∧
    (exampleGlobals 16).dirBlocks fullImage rootInodeNum ≠ [] :=
  ⟨by decide +kernel,by decide +kernel,(liveDir_of_check (by decide +kernel)).ok,
    (liveDir_of_check (by decide +kernel)).ok,by decide +kernel⟩

theorem full_adoptable : Adoptable (exampleGlobals 16) fullImage 11 13 where
  dir := full_dirs.2.2.1
  slots b hb := by
    rw [full_dirs.2.1] at hb
    obtain rfl : b = 8 := by simpa using hb
    exact ⟨_,full_slots⟩
  tables := by decide +kernel
  apart c hc := by
    have hfirst : (exampleGlobals 16).firstPtr fullImage 13 = 9 := by decide +kernel
    have hblocks : ∀ c ∈ (exampleGlobals 16).inodeBlock 11 :: (exampleGlobals 16).dirBlocks fullImage 11,
        c ≤ 16 ∧ 9 ≠ c := by decide +kernel
    rw [hfirst]
    exact full_layout.1.apart (by decide) (hblocks c hc).1 (hblocks c hc).2
  first_lt _ := by decide +kernel

theorem full_not_canTake : ¬ CanTake (exampleGlobals 16) fullImage 11 13 := by
  rintro ⟨b,hb,slots,hslots,p,hp,hspace⟩
  rw [full_dirs.2.1] at hb
  obtain rfl : b = 8 := by simpa using hb
  rw [hslots.functional full_slots] at hp
  have hfull : ∀ p ∈ [0,12,24,288,552,816].map fun off =>
      (off,entryAt ((exampleGlobals 16).blockAt fullImage 8) off),
      ¬ ownSize p.2+((exampleGlobals 16).newEntry fullImage 13).recLen ≤ p.2.recLen := by decide +kernel
  exact hfull p hp hspace

theorem addToLostFound_atomic_iff_full : Atomic (exampleGlobals 16) ⟨fullImage,[]⟩ 13 ↔
    (exampleGlobals 16).lostFound fullImage = none ∨ ∃ L,
      (exampleGlobals 16).lostFound fullImage = some L ∧
      FirstFitLive (exampleGlobals 16) fullImage L 13 :=
  addToLostFound_atomic_iff (d := ⟨fullImage,[]⟩) full_layout.1 (by decide) full_layout.2
    full_dirs.2.2.2.1 full_dirs.2.2.2.2 (by decide) (by decide) fun L hL => by
      rw [full_dirs.1] at hL
      cases hL
      exact ⟨full_adoptable,by decide +kernel⟩

/-- Nothing is returned, and the `..` of directory 13, which named the root before, names `lost+found`,
where there is no entry for it. -/
theorem addToLostFound_reparents : (exampleGlobals 16).Fits fullImage ∧
    (exampleGlobals 16).lostFound fullImage = some 11 ∧ Adoptable (exampleGlobals 16) fullImage 11 13 ∧
    13 ∉ (exampleGlobals 16).named fullImage 11 ∧ ¬ CanTake (exampleGlobals 16) fullImage 11 13 ∧
    num ((exampleGlobals 16).blockAt fullImage 9).byte firstEntryLen 4 = 12 ∧
    ∃ r d', (addToLostFound (exampleGlobals 16) 13).run ⟨fullImage,[]⟩ = .ok r d' ∧ r = none ∧
      num ((exampleGlobals 16).blockAt d'.image 9).byte firstEntryLen 4 = 11 ∧
      13 ∉ (exampleGlobals 16).named d'.image 11 := by
  have hrun : endsIn (addToLostFound (exampleGlobals 16) 13) ⟨fullImage,[]⟩ (fun r d' =>
      decide (r = none) && decide (num ((exampleGlobals 16).blockAt d'.image 9).byte firstEntryLen 4 = 11) &&
        decide (13 ∉ (exampleGlobals 16).named d'.image 11)) = true := by decide +kernel
  obtain ⟨r,d',hok,hprop⟩ := exists_of_endsIn hrun
  simp only [Bool.and_eq_true,decide_eq_true_eq] at hprop
  exact ⟨full_layout.2,full_dirs.1,full_adoptable,by decide +kernel,full_not_canTake,by decide +kernel,
    r,d',hok,hprop.1.1,hprop.1.2,hprop.2⟩

end MyFsck
