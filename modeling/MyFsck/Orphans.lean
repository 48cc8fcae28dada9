import MyFsck.Links
import MyFsck.Traversal
import MyFsck.BlockBitmap

/-! Unreferenced inodes: a file system some of whose inodes are not linked from the root, and what
stays of it while `pass2` takes them into `lost+found`, one after the other. -/
namespace MyFsck

open ByteBuffer ErrorState Unfolding

section InodeBitmap

variable {g : Globals} {img : Buf}

/-- The inode bitmaps of all groups one behind the other, as `pass2` loads them. -/
def Globals.inodeFlat (g : Globals) (img : Buf) : Buf :=
  Buf.concat g.blockSize g.inodeGroups fun a => g.blockAt img (g.inodeBitmap a)

/-- The bit that `pass2` takes for the bit of inode `i`. -/
def Globals.inodeBit (g : Globals) (img : Buf) (i : ℕ) : Bool := bitAt (g.inodeFlat img) i

theorem GroupLayout.inodeBitmap_lt (hl : GroupLayout g) {a : ℕ} (ha : a < g.blockGroups) :
    1 ≤ g.inodeBitmap a ∧ g.inodeBitmap a < g.superBlock.sBlocksCount := by
  have h₁ := hl.groupStart_lt ha
  rw [hl.inode_bitmap a ha]
  simp only [Globals.skip] at h₁
  omega

theorem getInodeBitmapInPartition_run (hl : GroupLayout g) {d : Device} (hf : g.Fits d.image) :
    (g.getInodeBitmapInPartition).run d = .ok (g.inodeFlat d.image) d := by
  have hg := hl.geometry
  have hbs := hl.block_size
  have hdesc := hl.desc_le
  have hgroups := hl.groups_eq
  simp only [groupDescSize] at hdesc
  have hnum : g.getInodeGroupNum = g.inodeGroups := by
    have h₁ := hg.inodes_le
    have h₂ := hg.group_pos
    have he : u32 (g.superBlock.sInodesCount+g.superBlock.sInodesPerGroup+(2^32-1)) =
        g.superBlock.sInodesCount+g.superBlock.sInodesPerGroup-1 := by
      unfold u32
      omega
    rw [Globals.getInodeGroupNum,he,Globals.inodeGroups]
  unfold Globals.getInodeBitmapInPartition
  rw [hnum,hl.getGroupInodeBitmapBlockNum_eq]
  dsimp only
  have hmul : g.inodeGroups*1*g.blockSize = g.inodeGroups*g.blockSize := by rw [Nat.mul_one]
  rw [hmul,u32_eq (by rw [hbs]; omega)]
  refine overlayLoop_run (fun _ _ => rfl) (fun i hi => ?_) fun i hi => ?_
  · rw [Nat.mul_one,hbs,u32_eq (by omega)]
  · obtain ⟨gd,hgd,_,hb,_⟩ := hl.groupDesc_run d (show i < g.blockGroups by omega)
    have h₁ := hl.inodeBitmap_lt (show i < g.blockGroups by omega)
    unfold Globals.getInodeBitmapInGroup
    rw [bind_ok hgd,hb,← hl.inode_bitmap i (by omega),readBlocks_run hg.sizes hf (by omega),blocksAt_one]

theorem getInodeAllocBit_eq (hl : GroupLayout g) {i : ℕ} (h1 : 1 ≤ i)
    (hi : i ≤ g.superBlock.sInodesCount) :
    getInodeAllocBit (g.inodeFlat img) i = some (ofBit (g.inodeBit img i)) := by
  have hlt := hl.geometry.inodesCount_lt
  refine allocBit_eq h1 (by omega) ?_
  have h₁ := hl.geometry.inodeGroup_lt h1 hi
  have h₂ : i-1 < (g.inodeGroup i+1)*g.superBlock.sInodesPerGroup := by
    rw [Globals.inodeGroup,Nat.succ_mul,Nat.mul_comm]
    have := Nat.div_add_mod (i-1) g.superBlock.sInodesPerGroup
    have := Nat.mod_lt (i-1) hl.inodes_pos
    omega
  have h₃ : (g.inodeGroup i+1)*g.superBlock.sInodesPerGroup ≤ g.inodeGroups*8192 :=
    Nat.mul_le_mul h₁ hl.inodes_le
  have h₄ : (g.inodeFlat img).size = g.inodeGroups*g.blockSize := rfl
  rw [h₄,hl.block_size]
  omega

end InodeBitmap

section Orphans

variable (g : Globals) (img : Buf)

def Globals.firstBlock (x : ℕ) : ℕ := (g.inodeAt img x).iBlock.getD 0 0

/-- The inode is the root, or an entry of a directory reached from it names it, the dots left out. -/
def Globals.Linked (i : ℕ) : Prop :=
  i = rootInodeNum ∨
    ∃ d, Reach (g.subdirs img) rootInodeNum d ∧ i ∈ (g.nonDot img d).map DirEntry.inode

/-- An inode that `pass2` looks at. -/
def Globals.Allocated (i : ℕ) : Prop :=
  1 ≤ i ∧ i ≤ g.superBlock.sInodesCount ∧ (g.inodeAt img i).iLinksCount ≠ 0 ∧ g.inodeBit img i = true

def Globals.Orphan (i : ℕ) : Prop := g.Allocated img i ∧ ¬ g.Linked img i

def Globals.OrphanDir (i : ℕ) : Prop := g.Orphan img i ∧ inodeIsDir (g.inodeAt img i) = true

/-- An orphan that no other orphan directory names, its dots left out. -/
def Globals.Topmost (i : ℕ) : Prop :=
  g.Orphan img i ∧ ∀ y, g.OrphanDir img y → y ≠ i → i ∉ (g.nonDot img y).map DirEntry.inode

/-- The directories of the file system, linked or not. -/
def Globals.Known (x : ℕ) : Prop := Reach (g.subdirs img) rootInodeNum x ∨ g.OrphanDir img x

/-- A directory entries can be added to. -/
structure LostFoundOk (L : ℕ) : Prop where
  reach : Reach (g.subdirs img) rootInodeNum L
  ne_root : L ≠ rootInodeNum
  dots : ∃ p q t ls, g.links img L = (p::q::t)::ls

/-- A well-formed file system whose orphans are directories and regular files that form a forest:
every directory has blocks of its own, an orphan directory starts with its two dots and names
orphans only, each of which has no other parent. -/
structure OrphanForest : Prop where
  tree : DirTree g img
  root_ne : g.dirBlocks img rootInodeNum ≠ []
  closed : ∀ d, Reach (g.subdirs img) rootInodeNum d → ∀ n ∈ g.named img d, g.Linked img n
  lostFound : ∀ L, g.lostFound img = some L → LostFoundOk g img L
  kind : ∀ x, g.Orphan img x →
    inodeIsDir (g.inodeAt img x) = true ∨ inodeIsReg (g.inodeAt img x) = true
  dir_ok : ∀ x, g.OrphanDir img x → DirOk g img x
  dots : ∀ x, g.OrphanDir img x → ∃ e₀ e₁ es ls, g.dirEntries img x = ((0,e₀)::(12,e₁)::es)::ls
  kids : ∀ x, g.OrphanDir img x → ∀ e ∈ g.nonDot img x, g.Orphan img e.inode ∧
    (dirIsDir e = inodeIsDir (g.inodeAt img e.inode))
  acyclic : ∀ x, g.OrphanDir img x → Acyclic (g.subdirs img) x
  one_parent : ∀ x y, g.OrphanDir img x → g.OrphanDir img y →
    ∀ z ∈ (g.nonDot img x).map DirEntry.inode, z ∈ (g.nonDot img y).map DirEntry.inode → x = y
  one_name : ∀ x, g.OrphanDir img x → ((g.nonDot img x).map DirEntry.inode).Nodup
  blocks_nodup : ∀ x, g.Known img x → (g.dirBlocks img x).Nodup
  blocks_disjoint : ∀ x y, g.Known img x → g.Known img y → x ≠ y →
    ∀ b ∈ g.dirBlocks img x, b ∉ g.dirBlocks img y
  first_lt : ∀ x, g.Orphan img x → g.firstBlock img x < g.superBlock.sBlocksCount
  first_apart : ∀ x, g.Orphan img x → ∀ y, g.Known img y → y ≠ x →
    g.firstBlock img x ∉ g.dirBlocks img y
  table_apart : ∀ b, (∃ x, g.Orphan img x ∧ b = g.firstBlock img x) ∨
    (∃ x, g.Known img x ∧ b ∈ g.dirBlocks img x) →
    ∀ i, 1 ≤ i → i ≤ g.superBlock.sInodesCount → b ≠ g.inodeBlock i

/-- The size of the entry that `create_new_entry` makes for inode `i`. -/
def entrySize (i : ℕ) : ℕ := padTo4Bytes (dirEntryPrefixLen+(nameDigits 10 i).length)

/-- The image `img` after the orphans of `A` were taken into `lost+found`, in this order. -/
structure TakenIn (A : List ℕ) (img' : Buf) : Prop where
  fits : g.Fits img'
  size_eq : img'.size = img.size
  inodes : ∀ i, 1 ≤ i → i ≤ g.superBlock.sInodesCount → g.inodeAt img' i = g.inodeAt img i
  frame : ∀ b, (∀ L, g.lostFound img = some L → b ∉ g.dirBlocks img L ∧
    ∀ a ∈ A, b ≠ g.firstBlock img a) → g.blockAt img' b = g.blockAt img b
  first : ∀ L, g.lostFound img = some L → ∀ a ∈ A, g.blockAt img' (g.firstBlock img a) =
    (g.blockAt img (g.firstBlock img a)).putNum firstEntryLen L 4
  lostFound : ∀ L, g.lostFound img = some L → DirOk g img' L ∧ ∃ P : List ℕ, P.Sublist A ∧
    Gains (g.links img L) (P.map fun a => (a,inodeIsDir (g.inodeAt img a))) (g.links img' L)
  room : ∀ L, g.lostFound img = some L → ∀ n,
    Room g img (g.dirBlocks img L) ((A.map entrySize).sum+n) → Room g img' (g.dirBlocks img L) n ∧
      Gains (g.links img L) (A.map fun a => (a,inodeIsDir (g.inodeAt img a))) (g.links img' L) ∧
      ∀ b ∈ g.dirBlocks img L, g.blockAt img' b = g.blockAt img b ∨ LiveBlock (g.blockAt img' b)

end Orphans

section TakenIn

variable {g : Globals} {img img' : Buf} {A : List ℕ}

theorem entrySize_le (i : ℕ) : 0 < entrySize i ∧ entrySize i ≤ entrySizeMax := by
  have hdigits := (nameDigits_spec 10 i).1
  unfold entrySize padTo4Bytes dirEntryPrefixLen entrySizeMax
  split <;> omega

theorem OrphanForest.known_le (h : OrphanForest g img) {x : ℕ} (hx : g.Known img x) :
    DirOk g img x := by
  rcases hx with hx | hx
  · exact h.tree.dirs x hx
  · exact h.dir_ok x hx

theorem TakenIn.refl (hf : g.Fits img) (h : OrphanForest g img) : TakenIn g img [] img where
  fits := hf
  size_eq := rfl
  inodes _ _ _ := rfl
  frame _ _ := rfl
  first _ _ _ ha := absurd ha List.not_mem_nil
  lostFound L hL := ⟨h.tree.dirs L (h.lostFound L hL).reach,[],List.Sublist.refl [],.refl⟩
  room L hL n hr := ⟨by simpa using hr,.refl,fun _ _ => Or.inl rfl⟩

theorem not_orphan_of_reach {x : ℕ} (hx : Reach (g.subdirs img) rootInodeNum x) : ¬ g.Orphan img x := by
  intro ho
  refine ho.2 ?_
  rcases Relation.ReflTransGen.cases_tail hx with rfl | ⟨d,hd,hk⟩
  · exact Or.inl rfl
  · obtain ⟨e,he,rfl⟩ := List.mem_map.mp hk
    exact Or.inr ⟨d,hd,List.mem_map.mpr ⟨e,(List.mem_filter.mp he).1,rfl⟩⟩

theorem TakenIn.dir_same (h : OrphanForest g img) (ht : TakenIn g img A img')
    (hA : ∀ a ∈ A, g.Orphan img a) {x : ℕ} (hx : g.Known img x)
    (hxA : ∀ L, g.lostFound img = some L → x ∉ A) (hxL : g.lostFound img ≠ some x) : g.dirBlocks img' x = g.dirBlocks img x ∧
      g.dirEntries img' x = g.dirEntries img x ∧ DirOk g img' x := by
  have hok := h.known_le hx
  have hi := ht.inodes x hok.num_pos hok.num_le
  have hblk : ∀ b ∈ g.dirBlocks img x, g.blockAt img' b = g.blockAt img b := by
    intro b hb
    refine ht.frame b fun L hL => ⟨?_,fun a ha => ?_⟩
    · have hxL' : x ≠ L := by
        rintro rfl
        exact hxL hL
      exact h.blocks_disjoint x L hx (Or.inl (h.lostFound L hL).reach) hxL' b hb
    · rintro rfl
      have hxa : x ≠ a := by
        rintro rfl
        exact hxA L hL ha
      exact h.first_apart a (hA a ha) x hx hxa hb
  have hcongr := dirEntries_congr (d := x) (by rw [hi]) hblk
  refine ⟨hcongr.1,hcongr.2,hok.num_pos,hok.num_le,?_,?_,?_⟩
  · rw [hcongr.1]
    exact hok.blocks_lt
  · rw [hcongr.1]
    intro b hb
    rw [hblk b hb]
    exact hok.wellFormed b hb
  · rw [Globals.named,hcongr.2]
    exact hok.named_le

theorem putNum_putNum {b : Buf} {off v n : ℕ} (h : off+n ≤ b.size) :
    (b.putNum off v n).putNum off v n = b.putNum off v n :=
  Buf.putNum_num (by rw [Buf.putNum_size]; exact h) (Buf.num_putNum h)

theorem TakenIn.adopt (hg : Geometry g) (hbs : g.blockSize < 2^16) (h : OrphanForest g img)
    {d : Device} (ht : TakenIn g img A d.image) (hA : ∀ a ∈ A, g.Orphan img a) {i : ℕ}
    (hi : g.Orphan img i) : ∃ r d', (addToLostFound g i).run d = .ok r d' ∧
      TakenIn g img (A++[i]) d'.image ∧ reported d'.out = reported d.out := by
  have hreach : Reach (g.subdirs img) rootInodeNum rootInodeNum := .refl
  have hrootL : g.lostFound img ≠ some rootInodeNum := fun hL => (h.lostFound _ hL).ne_root rfl
  have hrootA : rootInodeNum ∉ A := fun ha => not_orphan_of_reach hreach (hA _ ha)
  obtain ⟨hrb,hre,hroot⟩ := ht.dir_same h hA (Or.inl hreach) (fun _ _ => hrootA) hrootL
  have hlost : g.lostFound d.image = g.lostFound img := by
    rw [Globals.lostFound,hre,Globals.lostFound]
  have hne : g.dirBlocks d.image rootInodeNum ≠ [] := by
    rw [hrb]
    exact h.root_ne
  cases hL : g.lostFound img with
  | none =>
    obtain ⟨d',hrun,him,hrep⟩ := addToLostFound_none hg ht.fits hroot hne (hlost.trans hL) i
    refine ⟨_,d',hrun,?_,hrep⟩
    rw [him]
    exact ⟨ht.fits,ht.size_eq,ht.inodes,fun b hb => ht.frame b (by simp [hL]),by simp [hL],by simp [hL],
      by simp [hL]⟩
  | some L =>
    obtain ⟨hLreach,_,p,q,t,ls,hdots⟩ := h.lostFound L hL
    obtain ⟨hLok,P,hP,hgains⟩ := ht.lostFound L hL
    obtain ⟨h1,hle,_⟩ := hi.1
    have hLi : L ≠ i := by
      rintro rfl
      exact not_orphan_of_reach hLreach hi
    have hLblocks : g.dirBlocks d.image L = g.dirBlocks img L := by
      rw [Globals.dirBlocks,ht.inodes L hLok.num_pos hLok.num_le,Globals.dirBlocks]
    have hLtable : ∀ b ∈ g.dirBlocks d.image L, ∀ j, 1 ≤ j → j ≤ g.superBlock.sInodesCount →
        b ≠ g.inodeBlock j := fun b hb =>
      h.table_apart b (Or.inr ⟨L,Or.inl hLreach,hLblocks ▸ hb⟩)
    have hfirst : (g.inodeAt d.image i).iBlock.getD 0 0 = g.firstBlock img i := by
      rw [ht.inodes i h1 hle,Globals.firstBlock]
    have hhead : ∀ b ∈ (g.dirBlocks d.image L).head?, entriesOf (g.blockAt d.image b) ≠ [] := by
      intro b hb hnil
      obtain ⟨t',ls',hlinks,_⟩ := hgains.dropDots_perm hdots
      cases hbl : g.dirBlocks d.image L with
      | nil =>
        rw [hbl] at hb
        cases hb
      | cons c bs =>
        rw [hbl] at hb
        obtain rfl : c = b := by simpa using hb
        rw [Globals.links,Globals.dirEntries,hbl,List.map_cons,List.map_cons,hnil] at hlinks
        simp at hlinks
    obtain ⟨d',hrun,hadopt,hrep⟩ := addToLostFound_run hg hbs ht.fits hroot hne (hlost.trans hL) hLok
      hhead (fun b hb => hLtable b hb i h1 hle) h1 hle (by rw [hfirst]; exact h.first_lt i hi)
    refine ⟨_,d',hrun,?_,hrep⟩
    obtain ⟨img₁,hplaced,hroomy,him⟩ := hadopt
    rw [hfirst] at him
    have hblt : g.firstBlock img i < g.superBlock.sBlocksCount := h.first_lt i hi
    obtain ⟨hf₁,hsize₁,hframe₁⟩ := hplaced.frame hg ht.fits hLok.blocks_lt
    rw [hLblocks] at hframe₁
    have hfi : g.firstBlock img i ∉ g.dirBlocks img L := h.first_apart i hi L (Or.inl hLreach) hLi
    have hsrc : ((g.blockAt img₁ (g.firstBlock img i)).putNum firstEntryLen L 4).size = g.blockSize := by
      rw [Buf.putNum_size,blockAt_size]
    have hother : ∀ b, b ≠ g.firstBlock img i → g.blockAt d'.image b = g.blockAt img₁ b := by
      intro b hb
      rw [him]
      exact blockAt_setBlock_ne hg.sizes hsrc hb
    have hself : g.blockAt d'.image (g.firstBlock img i) =
        (g.blockAt img₁ (g.firstBlock img i)).putNum firstEntryLen L 4 := by
      rw [him]
      exact blockAt_setBlock_self hsrc
    have hinodes : ∀ j, 1 ≤ j → j ≤ g.superBlock.sInodesCount →
        g.inodeAt d'.image j = g.inodeAt d.image j := by
      intro j hj hj'
      have hb₁ : g.inodeBlock j ≠ g.firstBlock img i :=
        (h.table_apart _ (Or.inl ⟨i,hi,rfl⟩) j hj hj').symm
      have hb₂ : g.inodeBlock j ∉ g.dirBlocks img L := fun hmem =>
        h.table_apart _ (Or.inr ⟨L,Or.inl hLreach,hmem⟩) j hj hj' rfl
      rw [Globals.inodeAt,hother _ hb₁,hframe₁ _ hb₂,Globals.inodeAt]
    have h12 : ∀ b, firstEntryLen+4 ≤ (g.blockAt img b).size := by
      intro b
      have h₁ := hg.sector_dvd
      have h₂ := Nat.le_of_dvd hg.block_pos h₁
      simp only [sectorSizeBytes] at h₂
      simp only [firstEntryLen,blockAt_size]
      omega
    have hfirst₁ : (g.blockAt img₁ (g.firstBlock img i)).putNum firstEntryLen L 4 =
        (g.blockAt img (g.firstBlock img i)).putNum firstEntryLen L 4 := by
      rw [hframe₁ _ hfi]
      by_cases hex : ∃ a ∈ A, g.firstBlock img a = g.firstBlock img i
      · obtain ⟨a,ha,hae⟩ := hex
        rw [← hae,ht.first L hL a ha,putNum_putNum (h12 _)]
      · rw [ht.frame _ fun L' hL' => ⟨by
          rw [hL] at hL'
          cases hL'
          exact hfi,fun a ha he => hex ⟨a,ha,he.symm⟩⟩]
    have hlinks := hplaced.links hg (by rw [hLblocks]; exact h.blocks_nodup L (Or.inl hLreach))
      (fun b hb => hLtable b hb L hLok.num_pos hLok.num_le) hLok.wellFormed
    have hLsame : g.dirBlocks d'.image L = g.dirBlocks img₁ L ∧
        g.dirEntries d'.image L = g.dirEntries img₁ L := by
      refine dirEntries_congr ?_ fun b hb => hother b ?_
      · have hb₁ : g.inodeBlock L ≠ g.firstBlock img i :=
          (h.table_apart _ (Or.inl ⟨i,hi,rfl⟩) L hLok.num_pos hLok.num_le).symm
        rw [Globals.inodeAt,hother _ hb₁,Globals.inodeAt]
      · rintro rfl
        rw [hlinks.1,hLblocks] at hb
        exact hfi hb
    have hLlinks : g.links d'.image L = g.links img₁ L := by
      rw [Globals.links,hLsame.2,Globals.links]
    have hnew : ((g.newEntry d.image i).inode,dirIsDir (g.newEntry d.image i)) =
        (i,inodeIsDir (g.inodeAt img i)) := by
      rw [Globals.newEntry,ht.inodes i h1 hle,dirIsDir]
      cases inodeIsDir (g.inodeAt img i) <;> rfl
    refine ⟨?_,?_,fun j hj hj' => (hinodes j hj hj').trans (ht.inodes j hj hj'),fun b hb => ?_,
      fun L' hL' a ha => ?_,fun L' hL' => ?_,fun L' hL' n hr => ?_⟩
    · rw [him]
      exact setBlock_fits hg.sizes hf₁ hblt hsrc
    · rw [him,setBlock_size hg.sizes hf₁ hblt hsrc,hsize₁,ht.size_eq]
    · obtain ⟨hb₁,hb₂⟩ := hb L hL
      rw [hother b (hb₂ i (by simp)),hframe₁ b hb₁]
      exact ht.frame b fun L' hL' => ⟨(hb L' hL').1,fun a ha => (hb L' hL').2 a (by simp [ha])⟩
    · rw [hL] at hL'
      cases hL'
      by_cases hae : g.firstBlock img a = g.firstBlock img i
      · rw [hae,hself,hfirst₁]
      · have haA : a ∈ A := by
          rcases List.mem_append.mp ha with ha | ha
          · exact ha
          · obtain rfl : a = i := by simpa using ha
            exact absurd rfl hae
        have hfa : g.firstBlock img a ∉ g.dirBlocks img L :=
          h.first_apart a (hA a haA) L (Or.inl hLreach) (by
            rintro rfl
            exact not_orphan_of_reach hLreach (hA _ haA))
        rw [hother _ hae,hframe₁ _ hfa,ht.first L hL a haA]
    · rw [hL] at hL'
      cases hL'
      have hnamed : ∀ n ∈ g.named d'.image L, n ∈ g.named d.image L ∨ n = i := by
        intro n hn
        rw [named_links,hLlinks] at hn
        rw [named_links]
        rcases hlinks.2.2 with he | he
        · rw [he] at hn
          exact Or.inl hn
        · have hp := (he.flatten_perm.map Prod.fst).mem_iff.mp hn
          rw [hnew] at hp
          simpa using hp
      refine ⟨⟨hLok.num_pos,hLok.num_le,?_,?_,fun n hn => ?_⟩,?_⟩
      · rw [hLsame.1,hlinks.1]
        exact hLok.blocks_lt
      · rw [hLsame.1,hlinks.1]
        intro b hb
        have hbi : b ≠ g.firstBlock img i := by
          rintro rfl
          rw [hLblocks] at hb
          exact hfi hb
        rw [hother b hbi]
        exact hlinks.2.1 b hb
      · rcases hnamed n hn with hn | rfl
        · exact hLok.named_le n hn
        · exact hle
      · rw [hLlinks]
        rcases hlinks.2.2 with he | he
        · exact ⟨P,hP.trans (List.sublist_append_left A [i]),he ▸ hgains⟩
        · refine ⟨P++[i],hP.append (List.Sublist.refl [i]),?_⟩
          rw [List.map_append,List.map_singleton,← hnew]
          exact hgains.trans he
    · rw [hL] at hL'
      cases hL'
      rw [List.map_append,List.sum_append,List.map_singleton,List.sum_singleton,Nat.add_assoc] at hr
      obtain ⟨hr₁,hgains₁,hkept⟩ := ht.room L hL _ hr
      rw [← hLblocks] at hr₁
      have hsize := entrySize_le i
      have hlast := hroomy (hr₁.roomy hsize.1 hsize.2)
      have hgains₂ := hlast.links hg (by rw [hLblocks]; exact h.blocks_nodup L (Or.inl hLreach))
        fun b hb => hLtable b hb L hLok.num_pos hLok.num_le
      have hlt := hg.inodesCount_lt
      have hr₂ := hlast.room hg (newEntry_fits h1 (by omega))
        (by rw [hLblocks]; exact h.blocks_nodup L (Or.inl hLreach)) hr₁
      rw [hLblocks] at hr₂
      have hne : ∀ b ∈ g.dirBlocks img L, b ≠ g.firstBlock img i := by
        rintro b hb rfl
        exact hfi hb
      refine ⟨hr₂.congr fun b hb => hother b (hne b hb),?_,fun b hb => ?_⟩
      · rw [hLlinks,List.map_append,List.map_singleton,← hnew]
        exact hgains₁.trans hgains₂
      · rw [hother b (hne b hb)]
        obtain ⟨c,-,blk,hs,rfl,hext⟩ := hlast
        by_cases hbc : b = c
        · subst hbc
          rw [blockAt_setBlock_self hs]
          obtain ⟨_,_,_,_,hlive,_⟩ := hext
          exact Or.inr hlive
        · rw [blockAt_setBlock_ne hg.sizes hs hbc]
          exact hkept b hb

theorem OrphanForest.first_block (h : OrphanForest g img) {x : ℕ} (hx : g.OrphanDir img x) :
    ∃ b bs e₀ e₁ es, g.dirBlocks img x = b::bs ∧ g.firstBlock img x = b ∧
      entriesOf (g.blockAt img b) = (0,e₀)::(12,e₁)::es := by
  obtain ⟨e₀,e₁,es,ls,hdots⟩ := h.dots x hx
  cases hb : g.dirBlocks img x with
  | nil =>
    rw [Globals.dirEntries,hb] at hdots
    cases hdots
  | cons b bs =>
    obtain ⟨l,hl,_⟩ := dirBlocks_cons hb
    rw [Globals.dirEntries,hb,List.map_cons] at hdots
    refine ⟨b,bs,e₀,e₁,es,rfl,?_,(List.cons.inj hdots).1⟩
    rw [Globals.firstBlock,hl]
    rfl

theorem TakenIn.dir_taken (hg : Geometry g) (h : OrphanForest g img) (ht : TakenIn g img A img')
    (hA : ∀ a ∈ A, g.Orphan img a) {x L : ℕ} (hx : g.OrphanDir img x) (hxA : x ∈ A)
    (hL : g.lostFound img = some L) : g.dirBlocks img' x = g.dirBlocks img x ∧
      g.links img' x = setSecond (fun p => (L,p.2)) (g.links img x) ∧ DirOk g img' x := by
  have hok := h.dir_ok x hx
  have hLreach := (h.lostFound L hL).reach
  have hLok := h.tree.dirs L hLreach
  have hxL : x ≠ L := by
    rintro rfl
    exact not_orphan_of_reach hLreach hx.1
  obtain ⟨b,bs,e₀,e₁,es,hblocks,hfirst,hent⟩ := h.first_block hx
  have hblocks' : g.dirBlocks img' x = b::bs := by
    rw [Globals.dirBlocks,ht.inodes x hok.num_pos hok.num_le,← Globals.dirBlocks,hblocks]
  have hnd := h.blocks_nodup x (Or.inr hx)
  rw [hblocks] at hnd
  have hmem : ∀ c ∈ bs, c ∈ g.dirBlocks img x := fun c hc => by simp [hblocks,hc]
  have hb : b ∈ g.dirBlocks img x := by simp [hblocks]
  have hrest : ∀ c ∈ bs, g.blockAt img' c = g.blockAt img c := by
    intro c hc
    refine ht.frame c fun L' hL' => ⟨?_,fun a ha => ?_⟩
    · rw [hL] at hL'
      cases hL'
      exact h.blocks_disjoint x L (Or.inr hx) (Or.inl hLreach) hxL c (hmem c hc)
    · rintro rfl
      by_cases hxa : x = a
      · subst hxa
        rw [hfirst] at hc
        exact (List.nodup_cons.mp hnd).1 hc
      · exact h.first_apart a (hA a ha) x (Or.inr hx) hxa (hmem _ hc)
  have hblk := ht.first L hL x hxA
  rw [hfirst] at hblk
  have hlt := hg.inodesCount_lt
  have hset := setSecond_block (hok.wellFormed b hb) hent (v := L) (by have := hLok.num_pos; omega)
    (by have := hLok.num_le; omega)
  rw [← hblk] at hset
  have hbs : bs.map (fun c => (entriesOf (g.blockAt img' c)).map linkOf) =
      bs.map fun c => (entriesOf (g.blockAt img c)).map linkOf :=
    List.map_congr_left fun c hc => by rw [hrest c hc]
  have hlinks : g.links img' x = setSecond (fun p => (L,p.2)) (g.links img x) := by
    rw [Globals.links,Globals.dirEntries,hblocks',Globals.links,Globals.dirEntries,hblocks,
      List.map_map,List.map_map,List.map_cons,List.map_cons]
    simp only [Function.comp_apply,hset.2,hent,List.map_cons]
    rw [show bs.map ((fun es => es.map linkOf) ∘ fun b => entriesOf (g.blockAt img' b)) = _ from hbs]
    rfl
  refine ⟨hblocks'.trans hblocks.symm,hlinks,hok.num_pos,hok.num_le,?_,?_,?_⟩
  · rw [hblocks',← hblocks]
    exact hok.blocks_lt
  · rw [hblocks']
    intro c hc
    rcases List.mem_cons.mp hc with rfl | hc
    · exact hset.1
    · rw [hrest c hc]
      exact hok.wellFormed c (hmem c hc)
  · intro n hn
    rw [named_links,hlinks,Globals.links,Globals.dirEntries,hblocks,List.map_cons,List.map_cons,hent]
      at hn
    have hn' : n = L ∨ n ∈ g.named img x := by
      rw [named_links,Globals.links,Globals.dirEntries,hblocks,List.map_cons,List.map_cons,hent]
      simp only [setSecond,List.map_cons,List.flatten_cons,List.cons_append,List.mem_cons] at hn ⊢
      rcases hn with hn | hn | hn
      · exact Or.inr (Or.inl hn)
      · exact Or.inl hn
      · exact Or.inr (Or.inr (Or.inr hn))
    rcases hn' with rfl | hn'
    · exact hLok.num_le
    · exact hok.named_le n hn'

theorem range'_split {m n : ℕ} (h : m+1 ≤ n) : ∃ rest, List.range' 1 n = List.range' 1 m ++ (m+1)::rest := by
  obtain ⟨k,rfl⟩ : ∃ k, n = m+(k+1) := ⟨n-(m+1),by omega⟩
  refine ⟨List.range' (m+1+1) k,?_⟩
  rw [← List.range'_append_1,Nat.add_comm 1 m,List.range'_succ]

theorem pass2Step_pass (hl : GroupLayout g) {d : Device} (hf : g.Fits d.image) {i : ℕ} (h1 : 1 ≤ i)
    (hi : i ≤ g.superBlock.sInodesCount) {counts : Buf} (hc : counts.size = g.superBlock.sInodesCount+1)
    (h : (g.inodeAt d.image i).iLinksCount ≠ 0 → g.inodeBit img i = true → counts.byte i ≠ 0)
    (fuel : ℕ) : (pass2Step g fuel (g.inodeFlat img) counts i).run d = .ok counts d := by
  unfold pass2Step
  rw [bind_ok (readInode_run hl.geometry hf h1 hi)]
  by_cases hlinks : (g.inodeAt d.image i).iLinksCount = 0
  · rw [if_pos hlinks]
    rfl
  · rw [if_neg hlinks,getInodeAllocBit_eq hl h1 hi,bind_ok (inBounds_some _ d)]
    cases hbit : g.inodeBit img i with
    | false => rfl
    | true =>
      have hne := h hlinks hbit
      rw [if_pos (show ofBit true = 1 from rfl),Buf.load_eq (by omega),
        bind_ok (inBounds_some _ d),if_neg hne]
      rfl

theorem pass2Step_skip (hl : GroupLayout g) {d : Device} (ht : TakenIn g img A d.image) {i : ℕ}
    (h1 : 1 ≤ i) (hi : i ≤ g.superBlock.sInodesCount) {counts : Buf}
    (hc : counts.size = g.superBlock.sInodesCount+1)
    (h : g.Allocated img i → counts.byte i ≠ 0) (fuel : ℕ) :
    (pass2Step g fuel (g.inodeFlat img) counts i).run d = .ok counts d :=
  pass2Step_pass hl ht.fits h1 hi hc (fun hlinks hbit =>
    h ⟨h1,hi,ht.inodes i h1 hi ▸ hlinks,hbit⟩) fuel

theorem pass2Step_report (hl : GroupLayout g) {d : Device} (hf : g.Fits d.image) {i : ℕ} (h1 : 1 ≤ i)
    (hi : i ≤ g.superBlock.sInodesCount) (hlinks : (g.inodeAt d.image i).iLinksCount ≠ 0)
    (hbit : g.inodeBit img i = true) {counts : Buf} (hc : counts.size = g.superBlock.sInodesCount+1)
    (h0 : counts.byte i = 0) (fuel : ℕ) :
    (pass2Step g fuel (g.inodeFlat img) counts i).run d =
      ((if inodeIsDir (g.inodeAt d.image i) = true then directoryTraversor g fuel counts i
        else pure counts) >>= fun counts => addToLostFound g i >>= fun _ => pure counts).run
        ⟨d.image,d.out++[Event.unreferencedInode i]⟩ := by
  unfold pass2Step
  rw [bind_ok (readInode_run hl.geometry hf h1 hi),if_neg hlinks,
    getInodeAllocBit_eq hl h1 hi,bind_ok (inBounds_some _ d),hbit,
    if_pos (show ofBit true = 1 from rfl),Buf.load_eq (by omega),
    bind_ok (inBounds_some _ d),if_pos h0,bind_ok (print_run _ d)]
  cases inodeIsDir (g.inodeAt d.image i) <;> rfl

theorem pass2Step_take (hl : GroupLayout g) {d : Device} (ht : TakenIn g img A d.image) {i : ℕ}
    (hal : g.Allocated img i) {counts : Buf} (hc : counts.size = g.superBlock.sInodesCount+1)
    (h0 : counts.byte i = 0) (fuel : ℕ) :
    (pass2Step g fuel (g.inodeFlat img) counts i).run d =
      ((if inodeIsDir (g.inodeAt img i) = true then directoryTraversor g fuel counts i
        else pure counts) >>= fun counts => addToLostFound g i >>= fun _ => pure counts).run
        ⟨d.image,d.out++[Event.unreferencedInode i]⟩ := by
  obtain ⟨h1,hi,hlinks,hbit⟩ := hal
  have hinode := ht.inodes i h1 hi
  rw [pass2Step_report hl ht.fits h1 hi (by rwa [hinode]) hbit hc h0,hinode]

theorem OrphanForest.reach_orphan (h : OrphanForest g img) {x y : ℕ} (hx : g.OrphanDir img x)
    (hr : Reach (g.subdirs img) x y) : g.OrphanDir img y := by
  induction hr with
  | refl => exact hx
  | tail _ hk ih =>
    obtain ⟨e,he,rfl⟩ := List.mem_map.mp hk
    obtain ⟨he,hd⟩ := List.mem_filter.mp he
    obtain ⟨ho,hty⟩ := h.kids _ ih e he
    exact ⟨ho,hty ▸ hd⟩

theorem OrphanForest.unfolds (h : OrphanForest g img) {x : ℕ} (hx : g.OrphanDir img x) :
    ∃ l, Unfolds (g.subdirs img) [x] l :=
  (h.acyclic x hx).unfolds ((Set.finite_Icc 1 g.superBlock.sInodesCount).subset fun y hy =>
    ⟨(h.dir_ok y (h.reach_orphan hx hy)).num_pos,(h.dir_ok y (h.reach_orphan hx hy)).num_le⟩)

theorem subdirs_named_nonDot {x k : ℕ} (hk : k ∈ g.subdirs img x) :
    k ∈ (g.nonDot img x).map DirEntry.inode := by
  obtain ⟨e,he,rfl⟩ := List.mem_map.mp hk
  exact List.mem_map.mpr ⟨e,(List.mem_filter.mp he).1,rfl⟩

theorem OrphanForest.topmost_reach (h : OrphanForest g img) {a b : ℕ} (ha : g.Topmost img a)
    (hb : g.OrphanDir img b) (hr : Reach (g.subdirs img) b a) : a = b := by
  rcases Relation.ReflTransGen.cases_tail hr with he | ⟨z,hz,hk⟩
  · exact he
  · have hzd := h.reach_orphan hb hz
    by_cases hza : z = a
    · subst hza
      exact absurd (Relation.TransGen.single hk) (h.acyclic z hzd z .refl)
    · exact absurd (subdirs_named_nonDot hk) (ha.2 z hzd hza)

end TakenIn

end MyFsck
