import MyFsck.Adoption

/-! Many calls of `add_to_lost_found`, one after the other: what becomes of the blocks of
`lost+found` and of the entries in them. -/
namespace MyFsck

open ByteBuffer ErrorState Buf

/-- What an entry says: the inode, its type and its name. -/
def essence (e : DirEntry) : ℕ × ℕ × List Byte := (e.inode,e.fileType,e.name)

/-- The entries in use of a block, wherever they stand. -/
def liveOf (b : Buf) : List (ℕ × ℕ × List Byte) :=
  ((slotsOf b).filter inUse).map fun p => essence p.2

/-- The entries in use of a directory. -/
def Globals.liveEntries (g : Globals) (img : Buf) (L : ℕ) : List (ℕ × ℕ × List Byte) :=
  ((g.dirBlocks img L).map fun b => liveOf (g.blockAt img b)).flatten

section Blocks

variable {b : Buf} {off : ℕ} {slots es : List (ℕ × DirEntry)}

theorem LiveChain.eq_slots (h : LiveChain b off es) (hs : Slots b off slots) : es = slots := by
  induction h generalizing slots with
  | done =>
    generalize hn : b.size = n at hs
    cases hs with
    | done => rfl
    | slot _ _ _ hrest =>
      have hle := hrest.le_size
      omega
  | @live off es hn hl hlive ih =>
    cases hs with
    | done =>
      have hle := hlive.chain.le_size
      omega
    | slot _ _ _ hrest => rw [ih hrest]

theorem LiveChain.all_inUse (h : LiveChain b off es) : ∀ p ∈ es, inUse p = true := by
  induction h with
  | done => simp
  | @live off es hn _ _ ih =>
    intro p hp
    rcases List.mem_cons.mp hp with rfl | hp
    · simpa [inUse,entryAt] using hn
    · exact ih p hp

theorem LiveChain.slots_of_dvd (h : LiveChain b off es) (hdvd : ∀ p ∈ es, 4 ∣ p.2.recLen) :
    Slots b off es := by
  induction h with
  | done => exact .done
  | @live off es hn hl _ ih =>
    exact .slot (by omega) (hdvd (off,entryAt b off) (by simp)) (fun _ => hl)
      (ih fun p hp => hdvd p (by simp [hp]))

theorem Slots.dvd (h : Slots b off slots) (hoff : 4 ∣ off) :
    (∀ p ∈ slots, 4 ∣ p.1 ∧ 4 ∣ p.2.recLen) ∧ 4 ∣ b.size := by
  induction h with
  | done => exact ⟨by simp,hoff⟩
  | @slot off es _ hdvd _ _ ih =>
    obtain ⟨hrest,hsize⟩ := ih (Nat.dvd_add hoff hdvd)
    refine ⟨fun p hp => ?_,hsize⟩
    rcases List.mem_cons.mp hp with rfl | hp
    · exact ⟨hoff,hdvd⟩
    · exact hrest p hp

theorem LiveBlock.liveOf_eq (h : LiveBlock b) (hw : Whole b) :
    liveOf b = (entriesOf b).map fun p => essence p.2 := by
  have hall : (entriesOf b).filter inUse = entriesOf b :=
    List.filter_eq_self.mpr (LiveChain.all_inUse h)
  rw [liveOf,← LiveChain.eq_slots h hw,hall]

theorem Extended.whole {b' : Buf} {new : DirEntry} (h : Extended new b b') (hl : LiveBlock b)
    (hw : Whole b) : Whole b' ∧ liveOf b' = liveOf b++[essence new] := by
  obtain ⟨init,o,e,he,hlive,hroom,he'⟩ := h
  obtain ⟨hdvd,hsize⟩ := hw.dvd (dvd_zero 4)
  rw [← LiveChain.eq_slots hl hw,he] at hdvd
  have ho : 4 ∣ o := (hdvd (o,e) (by simp)).1
  have hpad := Nat.dvd_of_mod_eq_zero (padTo4Bytes_mod (8+e.nameLen))
  have hrest : 4 ∣ b.size-(o+padTo4Bytes (8+e.nameLen)) := Nat.dvd_sub hsize (Nat.dvd_add ho hpad)
  have hslots : Slots b' 0 (entriesOf b') := LiveChain.slots_of_dvd hlive fun p hp => by
    rw [he',List.mem_append] at hp
    rcases hp with hp | hp
    · exact (hdvd p (List.mem_append_left _ hp)).2
    · simp only [List.mem_cons,List.not_mem_nil,or_false] at hp
      rcases hp with rfl | rfl
      · exact hpad
      · exact hrest
  refine ⟨hslots.whole,?_⟩
  rw [LiveBlock.liveOf_eq hlive hslots.whole,LiveBlock.liveOf_eq hl hw,he,he']
  simp [essence]

end Blocks

section Runs

variable (g : Globals) (L : ℕ)

/-- The blocks of `lost+found` are still filled up by their entries, and there is one entry in use
more, for inode `i`. -/
structure Added (img : Buf) (i : ℕ) (img' : Buf) : Prop where
  blocks : g.dirBlocks img' L = g.dirBlocks img L
  whole : ∀ b ∈ g.dirBlocks img L, Whole (g.blockAt img' b)
  live : (g.liveEntries img' L).Perm (g.liveEntries img L++[essence (g.newEntry img i)])

/-- As long as a block of `lost+found` can take the next inode, the call adds it. -/
def EachAdds : Device → List ℕ → Prop
  | _, [] => True
  | d, i::is => CanTake g d.image L i → ∃ r d', (addToLostFound g i).run d = .ok r d' ∧
      Added g L d.image i d'.image ∧ EachAdds d' is

/-- Whenever a block can take the next inode, the first block that passes the program's test has no
unused entry. -/
def EachFits : Device → List ℕ → Prop
  | _, [] => True
  | d, i::is => CanTake g d.image L i → FirstFitLive g d.image L i ∧
      ∀ r d', (addToLostFound g i).run d = .ok r d' → EachFits d' is

/-- A well-formed root, a `lost+found` with entries that fill its blocks, and inodes to be added whose
first blocks are their own. -/
structure Ready (is : List ℕ) (img : Buf) : Prop where
  fits : g.Fits img
  root : DirOk g img rootInodeNum
  root_ne : g.dirBlocks img rootInodeNum ≠ []
  found : g.lostFound img = some L
  dir : DirOk g img L
  whole : ∀ b ∈ g.dirBlocks img L, Whole (g.blockAt img b)
  nodup : (g.dirBlocks img L).Nodup
  own : ∀ b ∈ g.dirBlocks img L, b ∉ g.dirBlocks img rootInodeNum ∧
    ∀ k, 1 ≤ k → k ≤ g.superBlock.sInodesCount → b ≠ g.inodeBlock k
  num : ∀ i ∈ is, 1 ≤ i ∧ i ≤ g.superBlock.sInodesCount
  first_lt : ∀ i ∈ is, g.firstPtr img i < g.superBlock.sBlocksCount
  first_own : ∀ i ∈ is, g.firstPtr img i ∉ g.dirBlocks img L ∧
    g.firstPtr img i ∉ g.dirBlocks img rootInodeNum ∧
    ∀ k, 1 ≤ k → k ≤ g.superBlock.sInodesCount → g.firstPtr img i ≠ g.inodeBlock k

end Runs

section Steps

variable {g : Globals} {L i : ℕ} {is : List ℕ} {img img' : Buf} {d : Device}

theorem Ready.adoptable (hr : Ready g L (i::is) img) (hg : Geometry g) : Adoptable g img L i where
  dir := hr.dir
  slots b hb := ⟨_,hr.whole b hb⟩
  tables b hb := by
    obtain ⟨h1,hi⟩ := hr.num i (by simp)
    exact ⟨(hr.own b hb).2 L hr.dir.num_pos hr.dir.num_le,(hr.own b hb).2 i h1 hi⟩
  apart c hc := by
    obtain ⟨hL,-,htable⟩ := hr.first_own i (by simp)
    have hlt := hr.first_lt i (by simp)
    rcases List.mem_cons.mp hc with rfl | hc
    · exact hg.apart hlt.le (hg.inodeBlock_lt hr.dir.num_pos hr.dir.num_le).2.le
        (htable L hr.dir.num_pos hr.dir.num_le)
    · exact hg.apart hlt.le (hr.dir.blocks_lt c hc).le fun h => hL (h ▸ hc)
  first_lt _ := hr.first_lt i (by simp)

theorem liveEntries_perm {new : DirEntry} {b : ℕ} (hb : b ∈ g.dirBlocks img L)
    (hnd : (g.dirBlocks img L).Nodup) (hblocks : g.dirBlocks img' L = g.dirBlocks img L)
    (hself : liveOf (g.blockAt img' b) = liveOf (g.blockAt img b)++[essence new])
    (hother : ∀ c ∈ g.dirBlocks img L, c ≠ b → g.blockAt img' c = g.blockAt img c) :
    (g.liveEntries img' L).Perm (g.liveEntries img L++[essence new]) := by
  obtain ⟨pre,post,h,h'⟩ := @map_split _ _ (fun c => liveOf (g.blockAt img c))
    (fun c => liveOf (g.blockAt img' c)) _ _ hb hnd fun c hc hcb => by rw [hother c hc hcb]
  rw [hself] at h'
  rw [Globals.liveEntries,Globals.liveEntries,hblocks,h,h']
  exact (Gains.step .refl).flatten_perm

theorem Extended.named {new : DirEntry} {b b' : Buf} (h : Extended new b b') {p : ℕ × DirEntry}
    (hp : p ∈ entriesOf b') :
    p.2.inode = new.inode ∨ ∃ q ∈ entriesOf b, q.2.inode = p.2.inode := by
  obtain ⟨init,o,e,he,-,-,he'⟩ := h
  rw [he',List.mem_append] at hp
  rw [he]
  rcases hp with hp | hp
  · exact Or.inr ⟨p,by simp [hp],rfl⟩
  · simp only [List.mem_cons,List.not_mem_nil,or_false] at hp
    rcases hp with rfl | rfl
    · exact Or.inr ⟨(o,e),by simp,rfl⟩
    · exact Or.inl rfl

/-- An image in which block `b` of `lost+found` has got the entry for `i`, and else only the first block
of `i` was written. -/
structure Written (g : Globals) (L i : ℕ) (img : Buf) (b : ℕ) (img' : Buf) : Prop where
  fits : g.Fits img'
  mem : b ∈ g.dirBlocks img L
  live : LiveBlock (g.blockAt img b)
  extended : Extended (g.newEntry img i) (g.blockAt img b) (g.blockAt img' b)
  other : ∀ c ≤ g.superBlock.sBlocksCount, c ≠ b → c ≠ g.firstPtr img i →
    g.blockAt img' c = g.blockAt img c

section After

variable {b : ℕ} (hr : Ready g L (i::is) img) (hw : Written g L i img b img') (hg : Geometry g)
include hr hw hg

theorem Written.inodes {k : ℕ} (hk1 : 1 ≤ k) (hk : k ≤ g.superBlock.sInodesCount) :
    g.inodeAt img' k = g.inodeAt img k := by
  rw [Globals.inodeAt,hw.other _ (hg.inodeBlock_lt hk1 hk).2.le ((hr.own b hw.mem).2 k hk1 hk).symm
    ((hr.first_own i (by simp)).2.2 k hk1 hk).symm,Globals.inodeAt]

theorem Written.root : g.dirBlocks img' rootInodeNum = g.dirBlocks img rootInodeNum ∧
    g.dirEntries img' rootInodeNum = g.dirEntries img rootInodeNum ∧ DirOk g img' rootInodeNum := by
  have hsame : ∀ c ∈ g.dirBlocks img rootInodeNum, g.blockAt img' c = g.blockAt img c :=
    fun c hc => hw.other c (hr.root.blocks_lt c hc).le (fun h => (hr.own b hw.mem).1 (h ▸ hc))
      fun h => (hr.first_own i (by simp)).2.1 (h ▸ hc)
  obtain ⟨hblocks,hentries⟩ := dirEntries_congr (by
    rw [hw.inodes hr hg hr.root.num_pos hr.root.num_le]) hsame
  refine ⟨hblocks,hentries,hr.root.num_pos,hr.root.num_le,fun c hc => ?_,fun c hc => ?_,
    fun n hn => hr.root.named_le n ?_⟩
  · rw [hblocks] at hc
    exact hr.root.blocks_lt c hc
  · rw [hblocks] at hc
    rw [hsame c hc]
    exact hr.root.wellFormed c hc
  · rw [Globals.named,hentries] at hn
    exact hn

theorem Written.added : Added g L img i img' := by
  have hblocks : g.dirBlocks img' L = g.dirBlocks img L := by
    rw [Globals.dirBlocks,hw.inodes hr hg hr.dir.num_pos hr.dir.num_le,Globals.dirBlocks]
  have hother : ∀ c ∈ g.dirBlocks img L, c ≠ b → g.blockAt img' c = g.blockAt img c :=
    fun c hc hcb => hw.other c (hr.dir.blocks_lt c hc).le hcb
      fun h => (hr.first_own i (by simp)).1 (h ▸ hc)
  obtain ⟨hwhole,hlive⟩ := hw.extended.whole hw.live (hr.whole b hw.mem)
  refine ⟨hblocks,fun c hc => ?_,liveEntries_perm hw.mem hr.nodup hblocks hlive hother⟩
  by_cases hcb : c = b
  · rw [hcb]
    exact hwhole
  · rw [hother c hc hcb]
    exact hr.whole c hc

theorem Written.dir : DirOk g img' L where
  num_pos := hr.dir.num_pos
  num_le := hr.dir.num_le
  blocks_lt := by
    rw [(hw.added hr hg).blocks]
    exact hr.dir.blocks_lt
  wellFormed c hc := by
    rw [(hw.added hr hg).blocks] at hc
    exact ((hw.added hr hg).whole c hc).chain.wellFormed.2
  named_le n hn := by
    simp only [Globals.named,Globals.dirEntries,List.mem_map,List.mem_flatten] at hn
    obtain ⟨p,⟨es,⟨c,hc,rfl⟩,hp⟩,rfl⟩ := hn
    rw [(hw.added hr hg).blocks] at hc
    by_cases hcb : c = b
    · rw [hcb] at hc hp
      rcases hw.extended.named hp with hnew | ⟨q,hq,hqp⟩
      · rw [hnew]
        exact (hr.num i (by simp)).2
      · rw [← hqp]
        exact hr.dir.named_le _ (mem_named hc hq)
    · rw [hw.other c (hr.dir.blocks_lt c hc).le hcb
        fun h => (hr.first_own i (by simp)).1 (h ▸ hc)] at hp
      exact hr.dir.named_le _ (mem_named hc hp)

theorem Written.ready : Ready g L is img' := by
  obtain ⟨hroot,hentries,hok⟩ := hw.root hr hg
  have hadd := hw.added hr hg
  have hptr : ∀ k ∈ is, g.firstPtr img' k = g.firstPtr img k := fun k hk => by
    obtain ⟨h1,hle⟩ := hr.num k (by simp [hk])
    rw [Globals.firstPtr,hw.inodes hr hg h1 hle,Globals.firstPtr]
  exact {
    fits := hw.fits
    root := hok
    root_ne := by
      rw [hroot]
      exact hr.root_ne
    found := by
      rw [Globals.lostFound,hentries]
      exact hr.found
    dir := hw.dir hr hg
    whole := by
      rw [hadd.blocks]
      exact hadd.whole
    nodup := by
      rw [hadd.blocks]
      exact hr.nodup
    own := by
      rw [hadd.blocks,hroot]
      exact hr.own
    num := fun k hk => hr.num k (by simp [hk])
    first_lt := fun k hk => by
      rw [hptr k hk]
      exact hr.first_lt k (by simp [hk])
    first_own := fun k hk => by
      rw [hptr k hk,hadd.blocks,hroot]
      exact hr.first_own k (by simp [hk]) }

end After

theorem Ready.written (hr : Ready g L (i::is) d.image) (hg : Geometry g) (hbs : g.blockSize < 2^16)
    (hfit : FirstFitLive g d.image L i) :
    ∃ r d' b, (addToLostFound g i).run d = .ok r d' ∧ Written g L i d.image b d'.image := by
  have ho := hr.adoptable hg
  obtain ⟨h1,hi⟩ := hr.num i (by simp)
  obtain ⟨⟨b,hfirst,hlb⟩,hin⟩ := hfit
  obtain ⟨hb,blk,d₁,hsize,him₁,hcall,hlive,-⟩ :=
    ho.fits_run hg hbs hr.fits hr.root hr.root_ne hr.found h1 hi hfirst
  have hblt := hr.dir.blocks_lt b hb
  have hflt := hr.first_lt i (by simp)
  have hin₁ : g.areaOffset (g.firstPtr d.image i)+g.blockSize ≤ d₁.image.size := by
    rw [him₁,setBlock_size hg.sizes hr.fits hblt hsize]
    exact hin
  have hself : g.blockAt (reparented g (g.firstPtr d.image i) L d₁.image) b = blk := by
    rw [blockAt_reparented hg L hblt.le (ho.apart b (by simp [hb])),him₁,blockAt_setBlock_self hsize]
  refine ⟨none,_,b,hcall.trans (reparent_run hg L hin₁),?_,hb,hlb,?_,fun c hc hcb hcf => ?_⟩
  · rw [Globals.Fits,reparented_size hin₁,him₁]
    exact setBlock_fits hg.sizes hr.fits hblt hsize
  · rw [hself]
    exact (hlive hlb).1
  · rw [blockAt_reparented hg L hc (hg.apart hflt.le hc hcf.symm),him₁,blockAt_setBlock_ne hg.sizes hsize hcb]

end Steps

/-- A computable test for `Ready`. -/
def readyCheck (g : Globals) (L : ℕ) (is : List ℕ) (img : Buf) : Bool :=
  liveDirCheck g img rootInodeNum && liveDirCheck g img L &&
    decide (g.Fits img ∧ g.dirBlocks img rootInodeNum ≠ [] ∧ g.lostFound img = some L ∧
      (g.dirBlocks img L).Nodup) &&
    (g.dirBlocks img L).all (fun b => slotsCheck (g.blockAt img b) g.blockSize 0 &&
      decide (b ∉ g.dirBlocks img rootInodeNum ∧
        ∀ k < g.superBlock.sInodesCount, b ≠ g.inodeBlock (k+1))) &&
    is.all fun i => decide ((1 ≤ i ∧ i ≤ g.superBlock.sInodesCount) ∧
      g.firstPtr img i < g.superBlock.sBlocksCount ∧ g.firstPtr img i ∉ g.dirBlocks img L ∧
      g.firstPtr img i ∉ g.dirBlocks img rootInodeNum ∧
      ∀ k < g.superBlock.sInodesCount, g.firstPtr img i ≠ g.inodeBlock (k+1))

theorem ready_of_check {g : Globals} {L : ℕ} {is : List ℕ} {img : Buf}
    (h : readyCheck g L is img = true) : Ready g L is img := by
  simp only [readyCheck,Bool.and_eq_true,List.all_eq_true,decide_eq_true_eq] at h
  obtain ⟨⟨⟨⟨hroot,hdir⟩,hf,hne,hL,hnd⟩,hblocks⟩,his⟩ := h
  have hnum : ∀ {b : ℕ}, (∀ k < g.superBlock.sInodesCount, b ≠ g.inodeBlock (k+1)) →
      ∀ k, 1 ≤ k → k ≤ g.superBlock.sInodesCount → b ≠ g.inodeBlock k := by
    intro b hb k h1 hk
    have hne := hb (k-1) (by omega)
    rwa [Nat.sub_add_cancel h1] at hne
  exact {
    fits := hf
    root := (liveDir_of_check hroot).ok
    root_ne := hne
    found := hL
    dir := (liveDir_of_check hdir).ok
    whole := fun b hb => whole_of_check (hblocks b hb).1
    nodup := hnd
    own := fun b hb => ⟨(hblocks b hb).2.1,hnum (hblocks b hb).2.2⟩
    num := fun i hi => (his i hi).1
    first_lt := fun i hi => (his i hi).2.1
    first_own := fun i hi => ⟨(his i hi).2.2.1,(his i hi).2.2.2.1,hnum (his i hi).2.2.2.2⟩ }

def fitCheck (g : Globals) (img : Buf) (L i : ℕ) : Bool :=
  decide (g.areaOffset (g.firstPtr img i)+g.blockSize ≤ img.size) &&
    match g.firstFit img (g.newEntry img i) (g.dirBlocks img L) none with
    | some b => liveCheck (g.blockAt img b) g.blockSize 0
    | none => false

theorem firstFitLive_of_check {g : Globals} {img : Buf} {L i : ℕ} (h : fitCheck g img L i = true) :
    FirstFitLive g img L i := by
  simp only [fitCheck,Bool.and_eq_true,decide_eq_true_eq] at h
  obtain ⟨hin,hfit⟩ := h
  cases hb : g.firstFit img (g.newEntry img i) (g.dirBlocks img L) none with
  | none =>
    rw [hb] at hfit
    cases hfit
  | some b =>
    rw [hb] at hfit
    exact ⟨⟨b,hb,liveBlock_of_check hfit⟩,hin⟩

/-- A `lost+found` (inode 11, block 8) with its two dots, and two directories (inodes 13 and 14) that
nothing names. -/
def orphansImage : Buf := exampleImage 16 [
  inodePiece 2 (inodeBytes 0x41ED 1024 2 [7]), inodePiece 11 (inodeBytes 0x41C0 1024 2 [8]),
  inodePiece 13 (inodeBytes 0x41ED 1024 2 [9]), inodePiece 14 (inodeBytes 0x41ED 1024 2 [10]),
  blockPiece 7 0 (dirBytes 2 2 (entryBytes 11 1000 2
    [108,111,115,116,43,102,111,117,110,100])),
  blockPiece 8 0 (entryBytes 11 12 2 [46]), blockPiece 8 12 (entryBytes 2 1012 2 [46,46]),
  blockPiece 9 0 (dirBytes 13 12 []), blockPiece 10 0 (dirBytes 14 12 [])]

theorem orphans_fit : Ready (exampleGlobals 16) 11 [13,14] orphansImage ∧
    EachFits (exampleGlobals 16) 11 ⟨orphansImage,[]⟩ [13,14] := by
  have hnext : endsIn (addToLostFound (exampleGlobals 16) 13) ⟨orphansImage,[]⟩ (fun _ d' =>
      fitCheck (exampleGlobals 16) d'.image 11 14) = true := by decide +kernel
  refine ⟨ready_of_check (by decide +kernel),?_⟩
  rw [EachFits]
  refine fun _ => ⟨firstFitLive_of_check (by decide +kernel),fun r d' hrun => ?_⟩
  have h14 := of_endsIn hnext hrun
  rw [EachFits]
  exact fun _ => ⟨firstFitLive_of_check h14,fun _ _ _ => trivial⟩

theorem packed_canTake : Ready (exampleGlobals 16) 11 [13] (packedImage 188) ∧
    CanTake (exampleGlobals 16) (packedImage 188) 11 13 ∧
    inodeIsDir ((exampleGlobals 16).inodeAt (packedImage 188) 13) = true ∧
    13 ∉ (exampleGlobals 16).named (packedImage 188) 11 ∧
    endsIn (addToLostFound (exampleGlobals 16) 13) ⟨packedImage 188,[]⟩ (fun _ d' =>
      decide (((exampleGlobals 16).liveEntries d'.image 11).length =
        ((exampleGlobals 16).liveEntries (packedImage 188) 11).length)) = true := by
  have hready : Ready (exampleGlobals 16) 11 [13] (packedImage 188) := ready_of_check (by decide +kernel)
  have hmem : 8 ∈ (exampleGlobals 16).dirBlocks (packedImage 188) 11 := by decide +kernel
  refine ⟨hready,⟨8,hmem,_,hready.whole 8 hmem,?_⟩,?_⟩
  · decide +kernel
  · decide +kernel

end MyFsck
