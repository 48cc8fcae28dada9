import MyFsck.BlockScan

/-! The search for a name in a directory, and which entries of the directory it can find. -/
namespace MyFsck

open ByteBuffer ErrorState

section Lookup

variable (g : Globals) (img : Buf) (inode : Inode)

def Inode.blocks (inode : Inode) : List ℕ := inode.iBlock.takeWhile (· ≠ 0)

/-- The entries in use of the directory, in the order of the disk. -/
def Globals.liveSlots : List DirEntry :=
  (inode.blocks.map fun b => (slotsOf (g.blockAt img b)).filter inUse).flatten.map Prod.snd

/-- A directory with at least one block, the blocks filled up with entries, and no zero byte in a
name. -/
structure NamedDir : Prop where
  ne : inode.blocks ≠ []
  lt : ∀ b ∈ inode.blocks, b < g.superBlock.sBlocksCount
  whole : ∀ b ∈ inode.blocks, Whole (g.blockAt img b)
  names : ∀ e ∈ g.liveSlots img inode, e.name.length = e.nameLen

/-- The name in the caller's entry after the search, as long as the entry says it is: behind the bytes
that were copied stands what was there before. -/
def nameLeft (old : List Byte) (e : DirEntry) : List Byte :=
  e.name ++ (old.drop (sizeofInode-dirEntryPrefixLen)).take (e.nameLen-(sizeofInode-dirEntryPrefixLen))

/-- The caller's entry agrees with the entry `e` on the disk, whatever it held before. -/
structure Copied (e r : DirEntry) : Prop where
  inode : r.inode = e.inode
  recLen : r.recLen = e.recLen
  nameLen : r.nameLen = e.nameLen
  fileType : r.fileType = e.fileType
  name : ∀ old : List Byte, old.length = 255 → nameLeft old r = e.name

end Lookup

/-- The search gives the first entry in use with the name, and -1 if there is none. -/
def LooksUp (g : Globals) (d : Device) (inode : Inode) (name : List Byte) : Prop :=
  ∃ r, (searchDirEntry g inode name).run d = .ok r d ∧
    match (g.liveSlots d.image inode).find? fun e => e.name == name with
    | none => r = none
    | some e => ∃ e', r = some e' ∧ Copied e e'

section Copy

variable {e : DirEntry}

theorem copied_iff (h : e.name.length = e.nameLen) :
    Copied e { e with name := e.name.take (sizeofInode-dirEntryPrefixLen) } ↔ e.name.length ≤ 120 := by
  constructor
  · intro hc
    by_contra hlong
    have hbyte : ∀ c : Byte, e.name[120]? = some c := by
      intro c
      have hname := hc.name (List.replicate 255 c) List.length_replicate
      rw [← hname,nameLeft]
      simp only [sizeofInode,dirEntryPrefixLen]
      rw [List.getElem?_append_right (by rw [List.length_take]; omega)]
      simp only [List.drop_replicate,List.take_replicate,List.length_take]
      rw [List.getElem?_replicate,if_pos (by omega)]
    have hdiff := (hbyte 0).symm.trans (hbyte 1)
    exact absurd hdiff (by decide)
  · intro hle
    refine ⟨rfl,rfl,rfl,rfl,fun old _ => ?_⟩
    simp only [nameLeft,sizeofInode,dirEntryPrefixLen]
    rw [List.take_of_length_le (by omega),← h,Nat.sub_eq_zero_of_le (by omega),List.take_zero,
      List.append_nil]

end Copy

section Search

variable {g : Globals} {d : Device} {inode : Inode} {img : Buf}

theorem NamedDir.split (h : NamedDir g img inode) : ∃ b l rest, inode.iBlock = b::l ∧ b ≠ 0 ∧
    b ∈ inode.blocks ∧ inode.iBlock.getD 0 0 = b ∧ WellFormedBlock (g.blockAt img b) ∧
      g.liveSlots img inode = (entriesOf (g.blockAt img b)).map Prod.snd++rest := by
  have hne := h.ne
  cases hl : inode.iBlock with
  | nil =>
    rw [Inode.blocks,hl] at hne
    exact absurd rfl hne
  | cons b l =>
    have hb0 : b ≠ 0 := by
      rintro rfl
      rw [Inode.blocks,hl] at hne
      simp at hne
    have hblocks : inode.blocks = b::l.takeWhile (· ≠ 0) := by
      rw [Inode.blocks,hl,List.takeWhile_cons_of_pos (by simpa using hb0)]
    have hb : b ∈ inode.blocks := by simp [hblocks]
    obtain ⟨hent,hwf⟩ := (h.whole b hb).chain.wellFormed
    have hslots : (slotsOf (g.blockAt img b)).filter inUse = entriesOf (g.blockAt img b) ++
        ((slotsOf (g.blockAt img b)).dropWhile inUse).filter inUse := by
      rw [hent]
      conv_lhs => rw [← List.takeWhile_append_dropWhile (p := inUse) (l := slotsOf (g.blockAt img b))]
      rw [List.filter_append]
      congr 1
      exact List.filter_eq_self.mpr fun p hp => List.mem_takeWhile_imp hp
    have hlive : ∃ rest, g.liveSlots img inode = (entriesOf (g.blockAt img b)).map Prod.snd++rest := by
      rw [Globals.liveSlots,hblocks,List.map_cons,List.flatten_cons,hslots,List.map_append,
        List.map_append,List.append_assoc]
      exact ⟨_,rfl⟩
    obtain ⟨rest,hrest⟩ := hlive
    exact ⟨b,l,rest,rfl,hb0,hb,rfl,hwf,hrest⟩

/-- The search is right exactly if the name, where it occurs at all, occurs in the first block in front
of an unused entry, and is no longer than 120 bytes. -/
theorem searchDirEntry_looksUp_iff (hg : Geometry g) (hf : g.Fits d.image)
    (h : NamedDir g d.image inode) (name : List Byte) :
    LooksUp g d inode name ↔ ((∃ e ∈ g.liveSlots d.image inode, e.name = name) →
      (∃ p ∈ entriesOf (g.blockAt d.image (inode.iBlock.getD 0 0)), p.2.name = name) ∧
        name.length ≤ 120) := by
  obtain ⟨b,l,rest,hl,hb0,hb,hfirst,hwf,hlive⟩ := h.split
  have hrun := searchDirEntry_first_run hg hf hl hb0 (h.lt b hb) hwf name
  rw [hfirst]
  have hfind : ((entriesOf (g.blockAt d.image b)).map Prod.snd).find? (fun e => e.name == name) =
      ((entriesOf (g.blockAt d.image b)).find? fun p => p.2.name == name).map Prod.snd := by
    rw [List.find?_map]
    rfl
  cases hin : (entriesOf (g.blockAt d.image b)).find? fun p => p.2.name == name with
  | some p =>
    have hmem := List.mem_of_find?_eq_some hin
    have hname : p.2.name = name := by simpa using List.find?_some hin
    have hall : (g.liveSlots d.image inode).find? (fun e => e.name == name) = some p.2 := by
      rw [hlive,List.find?_append,hfind,hin]
      rfl
    have hslot : p.2 ∈ g.liveSlots d.image inode := List.mem_of_find?_eq_some hall
    have hcopied := copied_iff (h.names p.2 hslot)
    have hlength : p.2.name.length = name.length := by rw [hname]
    rw [hlength] at hcopied
    rw [findIn,hin] at hrun
    constructor
    · rintro ⟨r,hr,hr'⟩ -
      rw [hrun] at hr
      cases hr
      rw [hall] at hr'
      obtain ⟨e',he',hc⟩ := hr'
      cases he'
      exact ⟨⟨p,hmem,hname⟩,hcopied.mp hc⟩
    · intro hcond
      obtain ⟨-,hlen⟩ := hcond ⟨p.2,hslot,hname⟩
      refine ⟨_,hrun,?_⟩
      rw [hall]
      exact ⟨_,rfl,hcopied.mpr hlen⟩
  | none =>
    have hno : ¬ ∃ p ∈ entriesOf (g.blockAt d.image b), p.2.name = name := by
      rintro ⟨p,hp,hname⟩
      have hnone := List.find?_eq_none.mp hin p hp
      simp [hname] at hnone
    rw [findIn,hin] at hrun
    constructor
    · rintro ⟨r,hr,hr'⟩ ⟨e,he,hname⟩
      rw [hrun] at hr
      cases hr
      cases hall : (g.liveSlots d.image inode).find? fun e => e.name == name with
      | none =>
        have hnone := List.find?_eq_none.mp hall e he
        simp [hname] at hnone
      | some e =>
        rw [hall] at hr'
        obtain ⟨e',he',-⟩ := hr'
        cases he'
    · intro hcond
      refine ⟨_,hrun,?_⟩
      cases hall : (g.liveSlots d.image inode).find? fun e => e.name == name with
      | none => rfl
      | some e =>
        have hname : e.name = name := by simpa using List.find?_some hall
        exact absurd (hcond ⟨e,List.mem_of_find?_eq_some hall,hname⟩).1 hno

end Search

/-- A directory (inode 2) with its two dots in block 7 and a file `f` in block 8. -/
def twoBlockImage : Buf := exampleImage 16 [
  inodePiece 2 (inodeBytes 0x41ED 2048 2 [7,8]), inodePiece 12 (inodeBytes 0x81A4 0 1 []),
  blockPiece 7 0 (entryBytes 2 12 2 [46]), blockPiece 7 12 (entryBytes 2 1012 2 [46,46]),
  blockPiece 8 0 (entryBytes 12 1024 1 [102])]

theorem twoBlock_dir : NamedDir (exampleGlobals 16) twoBlockImage
    ((exampleGlobals 16).inodeAt twoBlockImage 2) := by
  have hslots : ∀ b ∈ ((exampleGlobals 16).inodeAt twoBlockImage 2).blocks,
      slotsCheck ((exampleGlobals 16).blockAt twoBlockImage b) 1024 0 = true := by decide +kernel
  exact ⟨by decide +kernel,by decide +kernel,fun b hb => whole_of_check (hslots b hb),by decide +kernel⟩

theorem twoBlock_layout : Geometry (exampleGlobals 16) ∧ (exampleGlobals 16).Fits twoBlockImage := by
  decide +kernel

theorem searchDirEntry_looksUp_iff_twoBlock :
    LooksUp (exampleGlobals 16) ⟨twoBlockImage,[]⟩ ((exampleGlobals 16).inodeAt twoBlockImage 2) [102] ↔
      ((∃ e ∈ (exampleGlobals 16).liveSlots twoBlockImage ((exampleGlobals 16).inodeAt twoBlockImage 2),
        e.name = [102]) →
      (∃ p ∈ entriesOf ((exampleGlobals 16).blockAt twoBlockImage
          (((exampleGlobals 16).inodeAt twoBlockImage 2).iBlock.getD 0 0)), p.2.name = [102]) ∧
        [(102 : Byte)].length ≤ 120) :=
  searchDirEntry_looksUp_iff (d := ⟨twoBlockImage,[]⟩) twoBlock_layout.1 twoBlock_layout.2 twoBlock_dir
    [102]

/-- The file `f` is in the directory, and the search for it gives -1. -/
theorem searchDirEntry_misses : NamedDir (exampleGlobals 16) twoBlockImage
      ((exampleGlobals 16).inodeAt twoBlockImage 2) ∧
    (∃ e ∈ (exampleGlobals 16).liveSlots twoBlockImage ((exampleGlobals 16).inodeAt twoBlockImage 2),
      e.name = [102]) ∧
    ¬ LooksUp (exampleGlobals 16) ⟨twoBlockImage,[]⟩ ((exampleGlobals 16).inodeAt twoBlockImage 2)
      [102] := by
  have hmem : ∃ e ∈ (exampleGlobals 16).liveSlots twoBlockImage
      ((exampleGlobals 16).inodeAt twoBlockImage 2), e.name = [102] := by decide +kernel
  have hfind : (((exampleGlobals 16).liveSlots twoBlockImage
      ((exampleGlobals 16).inodeAt twoBlockImage 2)).find? fun e => e.name == [102]).isSome = true := by
    decide +kernel
  have hrun : endsIn (searchDirEntry (exampleGlobals 16) ((exampleGlobals 16).inodeAt twoBlockImage 2)
      [102]) ⟨twoBlockImage,[]⟩ (fun r _ => r.isNone) = true := by decide +kernel
  refine ⟨twoBlock_dir,hmem,?_⟩
  rintro ⟨r,hr,hr'⟩
  have hnone := of_endsIn hrun hr
  obtain ⟨e,he⟩ := Option.isSome_iff_exists.mp hfind
  rw [he] at hr'
  obtain ⟨e',rfl,-⟩ := hr'
  cases hnone

end MyFsck
