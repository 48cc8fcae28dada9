import MyFsck.DotEntries

/-! The blocks a directory is scanned in. The four functions that scan directories go through the 15
pointers of the inode as if each named a block of entries, the indirect ones too. -/
namespace MyFsck

open ByteBuffer ErrorState

/-- The blocks that a loop over the pointers of an inode goes through. -/
def Inode.scanned (inode : Inode) : List ℕ := inode.iBlock.takeWhile (· ≠ 0)

section Map

variable (g : Globals) (img : Buf) (inode : Inode)

/-- The block that holds block `k` of a file, for any size of the blocks. -/
def Globals.mapped (k : ℕ) : ℕ :=
  let p := pointersPerBlock g
  if k < 12 then inode.iBlock.getD k 0
  else if k < 12+p then g.indirect img (inode.iBlock.getD 12 0) (k-12)
  else g.indirect img (g.indirect img (inode.iBlock.getD 13 0) ((k-12-p)/p)) ((k-12-p)%p)

/-- The blocks of the data of an inode, in order. -/
def Globals.dataBlocks : List ℕ := (List.range (g.sizeInBlocks inode)).map (g.mapped img inode)

/-- The pointer blocks an inode of its size has. -/
def Globals.pointerBlocks : List ℕ :=
  let p := pointersPerBlock g
  let n := g.sizeInBlocks inode
  (if 12 < n then [inode.iBlock.getD 12 0] else []) ++
    if 12+p < n then inode.iBlock.getD 13 0 ::
      (List.range ((n-12-p+p-1)/p)).map (g.indirect img (inode.iBlock.getD 13 0)) else []

/-- The pointers of the inode that are used are those its size asks for, and there is no
triple-indirect block. -/
structure PointersFit : Prop where
  length_eq : inode.iBlock.length = ext2NBlocks
  direct : ∀ k < 12, inode.iBlock.getD k 0 ≠ 0 ↔ k < g.sizeInBlocks inode
  indirect : inode.iBlock.getD 12 0 ≠ 0 ↔ 12 < g.sizeInBlocks inode
  double : inode.iBlock.getD 13 0 ≠ 0 ↔ 12+pointersPerBlock g < g.sizeInBlocks inode
  triple : inode.iBlock.getD 14 0 = 0

end Map

section Scanned

variable {g : Globals} {img : Buf} {inode : Inode}

theorem takeWhile_eq_take {l : List ℕ} {m : ℕ} (hm : m ≤ l.length) (h : ∀ k < m, l.getD k 0 ≠ 0)
    (hend : l.getD m 0 = 0) : l.takeWhile (· ≠ 0) = l.take m := by
  induction l generalizing m with
  | nil => simp
  | cons a l ih =>
    cases m with
    | zero =>
      have ha : a = 0 := hend
      simp [ha]
    | succ m =>
      have ha : a ≠ 0 := h 0 (by omega)
      rw [List.takeWhile_cons_of_pos (by simpa using ha),List.take_succ_cons,
        ih (by simpa using hm) (fun k hk => h (k+1) (by omega)) hend]

theorem map_getD_range {l : List ℕ} {n : ℕ} (hn : n ≤ l.length) :
    (List.range n).map (fun k => l.getD k 0) = l.take n := by
  refine List.ext_getElem (by simp [hn]) fun k hk hk' => ?_
  have hlt : k < l.length := by
    simp only [List.length_map,List.length_range] at hk
    omega
  rw [List.getElem_map,List.getElem_range,List.getElem_take,List.getD_eq_getElem _ _ hlt]

theorem PointersFit.scanned_eq (h : PointersFit g inode) :
    inode.scanned = inode.iBlock.take (if g.sizeInBlocks inode ≤ 12 then g.sizeInBlocks inode
      else if g.sizeInBlocks inode ≤ 12+pointersPerBlock g then 13 else 14) := by
  have hlen : inode.iBlock.length = 15 := h.length_eq
  have hdirect := h.direct
  have hind := h.indirect
  have hdouble := h.double
  split
  · rename_i hn
    refine takeWhile_eq_take (by omega) (fun k hk => (hdirect k (by omega)).mpr hk) ?_
    by_contra hne
    by_cases h12 : g.sizeInBlocks inode = 12
    · rw [h12] at hne
      exact absurd (hind.mp hne) (by omega)
    · exact absurd ((hdirect _ (by omega)).mp hne) (by omega)
  · rename_i hn
    have hfront : ∀ k < 13, inode.iBlock.getD k 0 ≠ 0 := fun k hk => by
      by_cases h12 : k = 12
      · rw [h12]
        exact hind.mpr (by omega)
      · exact (hdirect k (by omega)).mpr (by omega)
    split
    · rename_i hp
      refine takeWhile_eq_take (by omega) hfront ?_
      by_contra hne
      exact absurd (hdouble.mp hne) (by omega)
    · rename_i hp
      refine takeWhile_eq_take (by omega) (fun k hk => ?_) h.triple
      by_cases h13 : k = 13
      · rw [h13]
        exact hdouble.mpr (by omega)
      · exact hfront k (by omega)

theorem placeEntry_scanned (g : Globals) (new_entry : DirEntry) (l : List ℕ) (entry : Option DirEntry) :
    placeEntry g new_entry l entry = placeEntry g new_entry (l.takeWhile (· ≠ 0)) entry := by
  induction l generalizing entry with
  | nil => rfl
  | cons b l ih =>
    by_cases hb : b = 0
    · simp [placeEntry,hb]
    · rw [List.takeWhile_cons_of_pos (by simpa using hb),placeEntry,placeEntry]
      simp only [ih]

theorem PointersFit.scanned_iff (h : PointersFit g inode) :
    (inode.scanned = g.dataBlocks img inode ∧ ∀ b ∈ g.pointerBlocks img inode, b ∉ inode.scanned) ↔
      g.sizeInBlocks inode ≤ 12 := by
  have hlen : inode.iBlock.length = 15 := h.length_eq
  rw [h.scanned_eq,Globals.dataBlocks]
  constructor
  · rintro ⟨_,hno⟩
    by_contra hn
    refine hno (inode.iBlock.getD 12 0) ?_ ?_
    · simp [Globals.pointerBlocks,show 12 < g.sizeInBlocks inode by omega]
    · rw [if_neg hn,List.getD_eq_getElem _ _ (by omega),List.mem_take_iff_getElem]
      exact ⟨12,by split <;> omega,rfl⟩
  · intro hn
    refine ⟨?_,?_⟩
    · rw [if_pos hn,← map_getD_range (by omega)]
      refine List.map_congr_left fun k hk => ?_
      rw [List.mem_range] at hk
      simp [Globals.mapped,show k < 12 by omega]
    · simp [Globals.pointerBlocks,show ¬ 12 < g.sizeInBlocks inode by omega,
        show ¬ 12+pointersPerBlock g < g.sizeInBlocks inode by omega]

/-- Each of the four functions goes through `scanned`, and this is the data of the directory, without
its pointer blocks, up to twelve blocks only. -/
theorem dir_scanned_iff {d : Device} {x : ℕ}
    (hr : (g.readInode x).run d = .ok inode d) (hdir : inodeIsDir inode = true)
    (h : PointersFit g inode) :
    ((∀ note visit parent, (pass1Call g note visit parent x).run d =
        (note x >>= fun _ => foldBlocks (pass1Block g visit parent x) 0 inode.scanned ()).run d) ∧
      (∀ note visit counts, (traversorCall g note visit counts x).run d =
        (note x >>= fun _ => foldBlocks (traversorBlock g visit) 0 inode.scanned counts).run d) ∧
      (∀ note visit block_bitmap, (bitmapCall g note visit block_bitmap x).run d =
        (note x >>= fun _ => foldBlocks (bitmapBlock g visit) 0 inode.scanned block_bitmap).run d) ∧
      ∀ new_entry entry, placeEntry g new_entry inode.iBlock entry =
        placeEntry g new_entry inode.scanned entry) ∧
    ((inode.scanned = g.dataBlocks d.image inode ∧
      ∀ b ∈ g.pointerBlocks d.image inode, b ∉ inode.scanned) ↔ g.sizeInBlocks inode ≤ 12) := by
  refine ⟨⟨fun note visit parent => ?_,fun note visit counts => ?_,fun note visit bm => ?_,
    fun new_entry entry => placeEntry_scanned g new_entry _ entry⟩,h.scanned_iff⟩
  · rw [pass1Call,bind_ok hr,notInodeIsDir_false,forBlocks_eq]
    rfl
  · rw [traversorCall,bind_ok hr,forBlocks_eq]
    rfl
  · obtain ⟨hlnk,hreg⟩ := dir_not_lnk_reg hdir
    rw [bitmapCall,bind_ok hr,hlnk,hreg,forBlocks_eq]
    rfl

end Scanned

/-- The root has 13 blocks: the pointers name 7 to 18, and the indirect block 19, whose first pointer
names 20. The pointer behind it, which is not used, has the bytes of a `rec_len` of 1024 and of type
directory. -/
def longImage : Buf := exampleImage 32 ([
  inodePiece 2 (inodeBytes 0x4000 (13*1024) 2 (List.range' 7 13)),
  blockPiece 7 0 (dirBytes 2 2 []),
  blockPiece 19 0 (littleEndian 20 4 ++ littleEndian 0x02000400 4)] ++
  (List.range' 8 11 ++ [20]).map fun b => blockPiece b 0 (entryBytes 11 1024 1 [97]))

theorem long_fits : PointersFit (exampleGlobals 32) ((exampleGlobals 32).inodeAt longImage 2) :=
  ⟨by decide +kernel,by decide +kernel,by decide +kernel,by decide +kernel,by decide +kernel⟩

theorem long_run : ((exampleGlobals 32).readInode 2).run ⟨longImage,[]⟩ =
    .ok ((exampleGlobals 32).inodeAt longImage 2) ⟨longImage,[]⟩ :=
  readInode_run (by decide) (by decide +kernel) (by decide) (by decide)

theorem dir_scanned_iff_tree :
    ((∀ note visit parent, (pass1Call (exampleGlobals 32) note visit parent 2).run ⟨longImage,[]⟩ =
        (note 2 >>= fun _ => foldBlocks (pass1Block (exampleGlobals 32) visit parent 2) 0
          ((exampleGlobals 32).inodeAt longImage 2).scanned ()).run ⟨longImage,[]⟩) ∧
      (∀ note visit counts, (traversorCall (exampleGlobals 32) note visit counts 2).run ⟨longImage,[]⟩ =
        (note 2 >>= fun _ => foldBlocks (traversorBlock (exampleGlobals 32) visit) 0
          ((exampleGlobals 32).inodeAt longImage 2).scanned counts).run ⟨longImage,[]⟩) ∧
      (∀ note visit block_bitmap,
        (bitmapCall (exampleGlobals 32) note visit block_bitmap 2).run ⟨longImage,[]⟩ =
        (note 2 >>= fun _ => foldBlocks (bitmapBlock (exampleGlobals 32) visit) 0
          ((exampleGlobals 32).inodeAt longImage 2).scanned block_bitmap).run ⟨longImage,[]⟩) ∧
      ∀ new_entry entry, placeEntry (exampleGlobals 32) new_entry
          ((exampleGlobals 32).inodeAt longImage 2).iBlock entry =
        placeEntry (exampleGlobals 32) new_entry ((exampleGlobals 32).inodeAt longImage 2).scanned entry) ∧
    ((((exampleGlobals 32).inodeAt longImage 2).scanned =
        (exampleGlobals 32).dataBlocks longImage ((exampleGlobals 32).inodeAt longImage 2) ∧
      ∀ b ∈ (exampleGlobals 32).pointerBlocks longImage ((exampleGlobals 32).inodeAt longImage 2),
        b ∉ ((exampleGlobals 32).inodeAt longImage 2).scanned) ↔
      (exampleGlobals 32).sizeInBlocks ((exampleGlobals 32).inodeAt longImage 2) ≤ 12) :=
  dir_scanned_iff long_run (by decide +kernel) long_fits

/-- The indirect block is gone through in the place of the last data block, and `pass1` writes the
number of the root over the pointer. -/
theorem pass1_scans_pointers :
    PointersFit (exampleGlobals 32) ((exampleGlobals 32).inodeAt longImage 2) ∧
    ((exampleGlobals 32).inodeAt longImage 2).scanned = List.range' 7 13 ∧
    (exampleGlobals 32).dataBlocks longImage ((exampleGlobals 32).inodeAt longImage 2) =
      List.range' 7 12 ++ [20] ∧
    ∃ u d', (pass1 (exampleGlobals 32) 2 2 2).run ⟨longImage,[]⟩ = .ok u d' ∧
      decide ((exampleGlobals 32).dataBlocks d'.image ((exampleGlobals 32).inodeAt d'.image 2) =
        List.range' 7 12 ++ [2]) = true :=
  ⟨long_fits,by decide +kernel,by decide +kernel,exists_of_endsIn (by decide +kernel)⟩

end MyFsck
