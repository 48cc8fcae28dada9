import MyFsck.Traversal
import MyFsck.Tree

/-! `pass3`: the link counts written back, as a function of the directory tree. -/
namespace MyFsck

open ByteBuffer ErrorState Unfolding

section SetLinks

variable {g : Globals} {img : Buf}

theorem InodeTables.inode_disjoint (ht : InodeTables g) {i j : ℕ} (hi : 1 ≤ i)
    (hi' : i ≤ g.superBlock.sInodesCount) (hj : 1 ≤ j) (hj' : j ≤ g.superBlock.sInodesCount)
    (hij : i ≠ j) (hb : g.inodeBlock i = g.inodeBlock j) :
    g.inodePos i + inodeSize ≤ g.inodePos j ∨ g.inodePos j + inodeSize ≤ g.inodePos i := by
  have hix := ht.inodeIndex_lt i
  have hjx := ht.inodeIndex_lt j
  have hgr : g.inodeGroup i = g.inodeGroup j := by
    by_contra hne
    have := ht.tables_disjoint _ (ht.inodeGroup_lt hi hi') _ (ht.inodeGroup_lt hj hj') hne
    simp only [Globals.inodeBlock] at hb
    omega
  have hidx : g.inodeIndex i = g.inodeIndex j := by
    simp only [Globals.inodeBlock,hgr] at hb
    omega
  have hsi := inodeOffset_split (g := g) i
  have hsj := inodeOffset_split (g := g) j
  rw [hidx] at hsi
  have hmod : (i-1)%g.superBlock.sInodesPerGroup ≠ (j-1)%g.superBlock.sInodesPerGroup := by
    intro he
    have h₁ := Nat.div_add_mod (i-1) g.superBlock.sInodesPerGroup
    have h₂ := Nat.div_add_mod (j-1) g.superBlock.sInodesPerGroup
    simp only [Globals.inodeGroup] at hgr
    rw [hgr,he] at h₁
    omega
  simp only [Globals.inodeOffset,inodeSize] at hsi hsj ⊢
  omega

/-- Where the link count of inode `i` is. -/
def Globals.linkPos (g : Globals) (i : ℕ) : ℕ := g.blockOffset (g.inodeBlock i) + (g.inodePos i+26)

theorem setLinks_byte (ht : InodeTables g) {i v k : ℕ} (h : k ≠ g.linkPos i) (h' : k ≠ g.linkPos i+1) :
    (g.setLinks img i v).byte k = img.byte k := by
  have hp := ht.inodePos_le i
  simp only [inodeSize] at hp
  refine setBlock_byte_eq (by simp) fun j hj hk => Buf.putNum_byte_out ?_
  simp only [Globals.linkPos] at h h'
  omega

theorem setLinks_size (ht : InodeTables g) (hf : g.Fits img) {i v : ℕ} (h1 : 1 ≤ i)
    (hi : i ≤ g.superBlock.sInodesCount) : (g.setLinks img i v).size = img.size :=
  setBlock_size ht.toBlockSizes hf (ht.inodeBlock_lt h1 hi) (by simp)

theorem setLinks_fits (ht : InodeTables g) (hf : g.Fits img) {i v : ℕ} (h1 : 1 ≤ i)
    (hi : i ≤ g.superBlock.sInodesCount) : g.Fits (g.setLinks img i v) :=
  setBlock_fits ht.toBlockSizes hf (ht.inodeBlock_lt h1 hi) (by simp)

theorem blockAt_setLinks_ne (ht : InodeTables g) {i v b : ℕ} (h : b ≠ g.inodeBlock i) :
    g.blockAt (g.setLinks img i v) b = g.blockAt img b :=
  blockAt_setBlock_ne ht.toBlockSizes (by simp) h

theorem blockAt_setLinks_self {i v : ℕ} : g.blockAt (g.setLinks img i v) (g.inodeBlock i) =
    (g.blockAt img (g.inodeBlock i)).putNum (g.inodePos i+26) v 2 :=
  blockAt_setBlock_self (by simp)

theorem inodeAt_setLinks_self (ht : InodeTables g) {i v : ℕ} :
    g.inodeAt (g.setLinks img i v) i = { g.inodeAt img i with iLinksCount := v % 2^16 } := by
  have hp := ht.inodePos_le i
  simp only [inodeSize] at hp
  have hin : num (g.blockAt (g.setLinks img i v) (g.inodeBlock i)).byte (g.inodePos i+26) 2 =
      v % 2^16 := by
    rw [blockAt_setLinks_self,Buf.num_putNum (by simp only [blockAt_size]; omega)]
    norm_num
  have hout : ∀ p n, p+n ≤ 26 ∨ 28 ≤ p →
      num (g.blockAt (g.setLinks img i v) (g.inodeBlock i)).byte (g.inodePos i+p) n =
        num (g.blockAt img (g.inodeBlock i)).byte (g.inodePos i+p) n := by
    intro p n h
    rw [blockAt_setLinks_self,Buf.num_putNum_disjoint (by omega)]
  have hout0 := hout 0 2 (by omega)
  simp only [Nat.add_zero] at hout0
  have hblock : ∀ k, num (g.blockAt (g.setLinks img i v) (g.inodeBlock i)).byte
      (g.inodePos i+40+k*4) 4 = num (g.blockAt img (g.inodeBlock i)).byte
        (g.inodePos i+40+k*4) 4 := by
    intro k
    rw [Nat.add_assoc]
    exact hout _ _ (by omega)
  simp only [Globals.inodeAt,inodeOf,hin,hout0,hout 2 2 (by omega),hout 4 4 (by omega),
    hout 8 4 (by omega),hout 12 4 (by omega),hout 16 4 (by omega),hout 20 4 (by omega),
    hout 24 2 (by omega),hout 28 4 (by omega),hout 32 4 (by omega),hblock]

theorem inodeAt_setLinks_ne (ht : InodeTables g) {i j v : ℕ} (hi : 1 ≤ i)
    (hi' : i ≤ g.superBlock.sInodesCount) (hj : 1 ≤ j) (hj' : j ≤ g.superBlock.sInodesCount)
    (h : j ≠ i) : g.inodeAt (g.setLinks img i v) j = g.inodeAt img j := by
  refine inodeOf_congr fun k hk => ?_
  by_cases hb : g.inodeBlock j = g.inodeBlock i
  · have hd := ht.inode_disjoint hj hj' hi hi' h hb
    have hp := ht.inodePos_le i
    simp only [inodeSize] at hd hp hk
    rw [hb,blockAt_setLinks_self,Buf.putNum_byte_out (by omega)]
  · rw [blockAt_setLinks_ne ht hb]

theorem setLinks_self (ht : InodeTables g) (hf : g.Fits img) {i v : ℕ} (h1 : 1 ≤ i)
    (hi : i ≤ g.superBlock.sInodesCount) (hv : (g.inodeAt img i).iLinksCount = v % 2^16) :
    g.setLinks img i v = img := by
  have hp := ht.inodePos_le i
  simp only [inodeSize] at hp
  unfold Globals.setLinks
  rw [Buf.putNum_num (by simp only [blockAt_size]; omega) (by norm_num; exact hv),
    setBlock_self ht.toBlockSizes hf (ht.inodeBlock_lt h1 hi)]

end SetLinks

/-- What a counter that has been raised `n` times leaves in `i_links_count`. -/
def charLinks (n : ℕ) : ℕ := ((BitVec.ofNat 8 n).signExtend 32).toNat % 2^16

theorem charLinks_eq (n : ℕ) :
    charLinks n = if n % 256 < 128 then n % 256 else 65280 + n % 256 := by
  have hlt := Nat.mod_lt n (by norm_num : 0 < 256)
  have hmsb : (BitVec.ofNat 8 n).msb = decide (128 ≤ n % 256) := by
    simp [BitVec.msb_eq_decide]
  rw [charLinks,BitVec.toNat_signExtend,hmsb]
  simp only [BitVec.toNat_setWidth,BitVec.toNat_ofNat,decide_eq_true_eq]
  split <;> split <;> omega

theorem charLinks_eq_iff {n m : ℕ} (hm : m ≤ 65535) :
    charLinks n = m ↔ n % 256 = m % 256 ∧ (m ≤ 127 ∨ 65408 ≤ m) := by
  rw [charLinks_eq]
  split <;> omega

theorem toInt_eq_links {c : Byte} {m : ℕ} (h : (m:ℤ) = c.toInt) :
    m = (c.signExtend 32).toNat % 2^16 := by
  rw [BitVec.toInt_eq_msb_cond] at h
  rw [BitVec.toNat_signExtend]
  have hc := c.isLt
  simp only [BitVec.toNat_setWidth]
  split at h <;> simp_all <;> omega

section Run

variable {g : Globals}

theorem pass3Step_run (hg : Geometry g) {d : Device} (hf : g.Fits d.image) {counts : Buf} {i : ℕ}
    (hc : counts.size = g.superBlock.sInodesCount+1) (h1 : 1 ≤ i)
    (hi : i ≤ g.superBlock.sInodesCount) : ∃ d', (pass3Step g counts i).run d = .ok () d' ∧
      d'.image = g.setLinks d.image i ((counts.byte i).signExtend 32).toNat := by
  unfold pass3Step
  rw [bind_ok (readInode_run hg hf h1 hi),Buf.load_eq (by omega),bind_ok (inBounds_some _ d)]
  by_cases hne : ((g.inodeAt d.image i).iLinksCount:ℤ) ≠ (counts.byte i).toInt
  · rw [if_pos hne,bind_ok (print_run _ d)]
    have hw := writeInode_run hg (d := ⟨d.image,d.out ++ [.refCount i (g.inodeAt d.image i).iLinksCount
      ((counts.byte i).signExtend 32).toNat]⟩) (v := ((counts.byte i).signExtend 32).toNat) hf h1 hi
    exact ⟨_,hw,rfl⟩
  · rw [if_neg hne]
    exact ⟨d,rfl,(setLinks_self hg.inodeTables hf h1 hi (toInt_eq_links (not_not.mp hne))).symm⟩

/-- The link counts of the inodes in `is` set to `f`. -/
def Globals.setAllLinks (g : Globals) (f : ℕ → ℕ) (img : Buf) (is : List ℕ) : Buf :=
  is.foldl (fun img i => g.setLinks img i (f i)) img

variable {f : ℕ → ℕ} {is : List ℕ} {img : Buf}

theorem setAllLinks_fits (hg : Geometry g) (his : ∀ i ∈ is, 1 ≤ i ∧ i ≤ g.superBlock.sInodesCount)
    (hf : g.Fits img) :
    g.Fits (g.setAllLinks f img is) ∧ (g.setAllLinks f img is).size = img.size := by
  induction is generalizing img with
  | nil => exact ⟨hf,rfl⟩
  | cons i is ih =>
    have hi := his i (by simp)
    have h := ih (fun j hj => his j (by simp [hj])) (setLinks_fits hg.inodeTables hf (v := f i) hi.1 hi.2)
    exact ⟨h.1,h.2.trans (setLinks_size hg.inodeTables hf hi.1 hi.2)⟩

theorem setAllLinks_byte (hg : Geometry g) {k : ℕ}
    (h : ∀ i ∈ is, k ≠ g.linkPos i ∧ k ≠ g.linkPos i+1) :
    (g.setAllLinks f img is).byte k = img.byte k := by
  induction is generalizing img with
  | nil => rfl
  | cons i is ih =>
    have hi := h i (by simp)
    exact (ih fun j hj => h j (by simp [hj])).trans (setLinks_byte hg.inodeTables hi.1 hi.2)

theorem setAllLinks_self (hg : Geometry g) (hf : g.Fits img)
    (his : ∀ i ∈ is, 1 ≤ i ∧ i ≤ g.superBlock.sInodesCount)
    (h : ∀ i ∈ is, (g.inodeAt img i).iLinksCount = f i % 2^16) : g.setAllLinks f img is = img := by
  induction is with
  | nil => rfl
  | cons i is ih =>
    have hi := his i (by simp)
    rw [Globals.setAllLinks,List.foldl_cons,setLinks_self hg.inodeTables hf hi.1 hi.2 (h i (by simp))]
    exact ih (fun j hj => his j (by simp [hj])) fun j hj => h j (by simp [hj])

theorem inodeAt_setAllLinks (hg : Geometry g)
    (his : ∀ i ∈ is, 1 ≤ i ∧ i ≤ g.superBlock.sInodesCount) {j : ℕ} (hj : 1 ≤ j)
    (hj' : j ≤ g.superBlock.sInodesCount) : g.inodeAt (g.setAllLinks f img is) j =
      if j ∈ is then { g.inodeAt img j with iLinksCount := f j % 2^16 } else g.inodeAt img j := by
  induction is generalizing img with
  | nil => rfl
  | cons i is ih =>
    have hi := his i (by simp)
    have hrest := @ih (g.setLinks img i (f i)) fun k hk => his k (by simp [hk])
    rw [Globals.setAllLinks,List.foldl_cons,← Globals.setAllLinks,hrest]
    by_cases hij : j = i
    · subst hij
      rw [inodeAt_setLinks_self hg.inodeTables]
      simp
    · rw [inodeAt_setLinks_ne hg.inodeTables hi.1 hi.2 hj hj' hij]
      simp [hij]

theorem pass3Loop_run (hg : Geometry g) {d : Device} (hf : g.Fits d.image) (counts : Buf)
    (hc : counts.size = g.superBlock.sInodesCount+1)
    (his : ∀ i ∈ is, 1 ≤ i ∧ i ≤ g.superBlock.sInodesCount) :
    ∃ d', (is.foldlM (fun _ i => pass3Step g counts i) ()).run d = .ok () d' ∧
      d'.image = g.setAllLinks (fun i => ((counts.byte i).signExtend 32).toNat) d.image is := by
  induction is generalizing d with
  | nil => exact ⟨d,rfl,rfl⟩
  | cons i is ih =>
    have hi := his i (by simp)
    obtain ⟨d₁,hd₁,him⟩ := pass3Step_run hg hf hc hi.1 hi.2
    have hf₁ : g.Fits d₁.image := him ▸ setLinks_fits hg.inodeTables hf hi.1 hi.2
    obtain ⟨d₂,hd₂,him₂⟩ := ih hf₁ fun j hj => his j (by simp [hj])
    refine ⟨d₂,?_,?_⟩
    · rw [List.foldlM_cons,bind_ok hd₁,hd₂]
    · rw [him₂,him]
      rfl

/-- The numbers of the inodes of the file system. -/
def Globals.inodeNums (g : Globals) : List ℕ := List.range' 1 g.superBlock.sInodesCount

theorem mem_inodeNums {i : ℕ} : i ∈ g.inodeNums ↔ 1 ≤ i ∧ i ≤ g.superBlock.sInodesCount := by
  simp only [Globals.inodeNums,List.mem_range'_1]
  omega

theorem pass3_run (hg : Geometry g) {d : Device} (hf : g.Fits d.image) {ds : List ℕ}
    (hu : Unfolds (g.subdirs d.image) [rootInodeNum] ds) (hok : ∀ y ∈ ds, DirOk g d.image y)
    {fuel : ℕ} (hfuel : ds.length ≤ fuel) : ∃ d', (pass3 g fuel).run d = .ok () d' ∧
      d'.image = g.setAllLinks (fun i => ((BitVec.ofNat 8 ((g.counted d.image ds).count i)).signExtend
        32).toNat) d.image g.inodeNums := by
  have hw := directoryTraversor_run hg hf hu hok fuel hfuel (Buf.zero (g.superBlock.sInodesCount+1)) rfl
  unfold pass3
  rw [calloc_inodes hg,bind_ok hw]
  obtain ⟨d',hd',him⟩ := pass3Loop_run hg hf (addCounts (Buf.zero (g.superBlock.sInodesCount+1))
    (g.counted d.image ds)) rfl fun i (hi : i ∈ g.inodeNums) => mem_inodeNums.mp hi
  refine ⟨d',hd',him.trans ?_⟩
  refine List.foldl_ext _ _ _ fun img i hi => ?_
  have hi' := mem_inodeNums.mp hi
  dsimp only
  rw [addCounts_zero_byte _ (by omega)]

end Run

/-- `img'` is `img` with the link counts of its inodes made exact: the numbers of entries in use that
name them, in the directories of the tree. -/
structure LinksExact (g : Globals) (img img' : Buf) : Prop where
  exact_ : ∀ i, 1 ≤ i → i ≤ g.superBlock.sInodesCount → g.naming img i ≤ 65535 →
    (g.inodeAt img' i).iLinksCount = g.naming img i
  size_eq : img'.size = img.size
  frame : ∀ k, (∀ i, 1 ≤ i → i ≤ g.superBlock.sInodesCount → k ≠ g.linkPos i ∧ k ≠ g.linkPos i+1) →
    img'.byte k = img.byte k

theorem count_counted {g : Globals} {img : Buf} (l : List ℕ) (i : ℕ) :
    (g.counted img l).count i = (l.map fun y => (g.named img y).count i).sum := by
  induction l with
  | nil => rfl
  | cons y l ih =>
    rw [Globals.counted,List.flatMap_cons,List.count_append,← Globals.counted,ih]
    simp

theorem SeenTree.counted {g : Globals} {img : Buf} (h : SeenTree g img) {ds : List ℕ}
    (hu : Unfolds (g.subdirs img) [rootInodeNum] ds) (hnodup : ds.Nodup) (i : ℕ) :
    (g.counted img ds).count i = g.naming img i := by
  have htree : ∀ x ∈ ds, g.InTree img x := fun x hx => h.reach_subdirs.mp (hu.mem_iff.mp hx)
  rw [count_counted,naming_eq (h.unfolds_iff.mp hu) hnodup fun x hx => (h.dirs x (htree x hx)).num_le]
  exact congrArg List.sum (List.map_congr_left fun x hx => by rw [h.named_eq (htree x hx)])

/-- Where the directories that entries of type directory lead to are well formed and make no cycle,
`pass3` makes the link counts exact if and only if for every inode with up to 65535 entries that name it
these are at most 127 or at least 65408, and the walk meets as many modulo 256. -/
theorem pass3_linksExact_iff {g : Globals} (hg : Geometry g) {d : Device} (hf : g.Fits d.image)
    (ht : DirTree g d.image) :
    ∃ ds, Unfolds (g.subdirs d.image) [rootInodeNum] ds ∧ ∃ n, ∀ fuel, n ≤ fuel →
      ∃ d', (pass3 g fuel).run d = .ok () d' ∧ (LinksExact g d.image d'.image ↔
        ∀ i, 1 ≤ i → i ≤ g.superBlock.sInodesCount → g.naming d.image i ≤ 65535 →
          (g.counted d.image ds).count i % 256 = g.naming d.image i % 256 ∧
          (g.naming d.image i ≤ 127 ∨ 65408 ≤ g.naming d.image i)) := by
  obtain ⟨ds,hu,hok⟩ := ht.unfolds
  refine ⟨ds,hu,ds.length,fun fuel hfuel => ?_⟩
  obtain ⟨d',hd',him⟩ := pass3_run hg hf hu hok hfuel
  refine ⟨d',hd',?_⟩
  have hin : ∀ i ∈ g.inodeNums, 1 ≤ i ∧ i ≤ g.superBlock.sInodesCount := fun i hi => mem_inodeNums.mp hi
  have hlinks : ∀ i, 1 ≤ i → i ≤ g.superBlock.sInodesCount → (g.inodeAt d'.image i).iLinksCount =
      charLinks ((g.counted d.image ds).count i) := by
    intro i h1 hi
    rw [him,inodeAt_setAllLinks hg hin h1 hi,if_pos (mem_inodeNums.mpr ⟨h1,hi⟩)]
    rfl
  constructor
  · intro h i h1 hi hle
    rw [← charLinks_eq_iff hle,← hlinks i h1 hi]
    exact h.exact_ i h1 hi hle
  · intro h
    refine ⟨fun i h1 hi hle => ?_,?_,fun k hk => ?_⟩
    · rw [hlinks i h1 hi,charLinks_eq_iff hle]
      exact h i h1 hi hle
    · rw [him]
      exact (setAllLinks_fits hg hin hf).2
    · rw [him]
      exact setAllLinks_byte hg fun i hi => hk i (hin i hi).1 (hin i hi).2

/-- A root directory of two blocks, 128 entries of which name inode 11. -/
def popularImage : Buf := exampleImage 16 [
  inodePiece 2 (inodeBytes 0x41ED 2048 2 [7,8]),
  inodePiece 11 (inodeBytes 0x81A4 0 128 []),
  blockPiece 7 0 (entryBytes 2 12 2 [46]),
  blockPiece 7 12 (entryBytes 2 12 2 [46,46]),
  blockPiece 7 1008 (entryBytes 11 16 1 [97]),
  (512+1024*7,1024,fun j => (entryBytes 11 12 1 [97]).getD (j%12) 0),
  blockPiece 8 528 (entryBytes 11 496 1 [97]),
  (512+1024*8,528,fun j => (entryBytes 11 12 1 [97]).getD (j%12) 0)]

theorem popular_facts : Geometry (exampleGlobals 16) ∧ (exampleGlobals 16).Fits popularImage ∧
    unfoldFrom ((exampleGlobals 16).subdirs popularImage) 1 [rootInodeNum] = some [2] ∧
    unfoldFrom ((exampleGlobals 16).dirsBelow popularImage) 1 [rootInodeNum] = some [2] ∧
    formedDirCheck (exampleGlobals 16) popularImage 2 = true ∧
    ([2].map fun x => ((exampleGlobals 16).usedNames popularImage x).count 11).sum = 128 ∧
    ((exampleGlobals 16).inodeAt popularImage 11).iLinksCount = 128 := by decide +kernel

theorem popular_unfolds : Unfolds ((exampleGlobals 16).subdirs popularImage) [rootInodeNum] [2] :=
  unfolds_of_unfoldFrom popular_facts.2.2.1

theorem popular_dirTree : DirTree (exampleGlobals 16) popularImage where
  acyclic := popular_unfolds.acyclic
  dirs y hy := by
    obtain rfl : y = 2 := by simpa using popular_unfolds.mem_iff.mpr hy
    exact (formedDir_of_check popular_facts.2.2.2.2.1).dirOk

theorem popular_tree : Unfolds ((exampleGlobals 16).dirsBelow popularImage) [rootInodeNum] [2] :=
  unfolds_of_unfoldFrom popular_facts.2.2.2.1

theorem popular_naming : (exampleGlobals 16).naming popularImage 11 = 128 := by
  obtain ⟨-,-,-,-,-,hsum,-⟩ := popular_facts
  rw [naming_eq popular_tree (by decide) (by decide)]
  exact hsum

theorem pass3_linksExact_iff_popular :
    ∃ ds, Unfolds ((exampleGlobals 16).subdirs popularImage) [rootInodeNum] ds ∧ ∃ n, ∀ fuel,
      n ≤ fuel → ∃ d', (pass3 (exampleGlobals 16) fuel).run ⟨popularImage,[]⟩ = .ok () d' ∧
        (LinksExact (exampleGlobals 16) popularImage d'.image ↔
        ∀ i, 1 ≤ i → i ≤ (exampleGlobals 16).superBlock.sInodesCount →
          (exampleGlobals 16).naming popularImage i ≤ 65535 →
          ((exampleGlobals 16).counted popularImage ds).count i % 256 =
            (exampleGlobals 16).naming popularImage i % 256 ∧
          ((exampleGlobals 16).naming popularImage i ≤ 127 ∨
            65408 ≤ (exampleGlobals 16).naming popularImage i)) :=
  pass3_linksExact_iff popular_facts.1 (d := ⟨popularImage,[]⟩) popular_facts.2.1 popular_dirTree

/-- The exact count 128 of inode 11 is overwritten with 65408. -/
theorem pass3_popular_wrong : Geometry (exampleGlobals 16) ∧ (exampleGlobals 16).Fits popularImage ∧
    Acyclic ((exampleGlobals 16).dirsBelow popularImage) rootInodeNum ∧
    (∀ y, (exampleGlobals 16).InTree popularImage y → FormedDir (exampleGlobals 16) popularImage y) ∧
    (exampleGlobals 16).naming popularImage 11 = 128 ∧
    ((exampleGlobals 16).inodeAt popularImage 11).iLinksCount = 128 ∧
    ∃ d', (pass3 (exampleGlobals 16) 1).run ⟨popularImage,[]⟩ = .ok () d' ∧
      ((exampleGlobals 16).inodeAt d'.image 11).iLinksCount = 65408 ∧
      ¬ LinksExact (exampleGlobals 16) popularImage d'.image := by
  obtain ⟨hg,hf,-,-,hformed,-,hcount⟩ := popular_facts
  refine ⟨hg,hf,popular_tree.acyclic,fun y hy => ?_,popular_naming,hcount,?_⟩
  · obtain rfl : y = 2 := by simpa using popular_tree.mem_iff.mpr hy
    exact formedDir_of_check hformed
  obtain ⟨d',hd',him⟩ := pass3_run hg (d := ⟨popularImage,[]⟩) hf popular_unfolds
    (fun y hy => popular_dirTree.dirs y (popular_unfolds.mem_iff.mp hy))
    (show [2].length ≤ 1 by decide)
  have hlinks : ((exampleGlobals 16).inodeAt d'.image 11).iLinksCount = 65408 := by
    rw [him,inodeAt_setAllLinks hg (fun i hi => mem_inodeNums.mp hi) (by decide) (by decide),
      if_pos (mem_inodeNums.mpr (by decide))]
    decide +kernel
  refine ⟨d',hd',hlinks,fun h => ?_⟩
  have h₁ := h.exact_ 11 (by decide) (by decide) (by rw [popular_naming]; norm_num)
  rw [hlinks,popular_naming] at h₁
  norm_num at h₁

end MyFsck
