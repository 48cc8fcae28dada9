import MyFsck.WalksEnd

/-! `pass3` and `pass4` do not get in each other's way: neither reads what the other writes, but for
the link counts, which `pass4` makes no use of. -/
namespace MyFsck

open ByteBuffer ErrorState Buf

/-- The images of the two devices differ at most where `P` holds. -/
def Differ (P : ℕ → Prop) (d d' : Device) : Prop := AgreeOff P d.image d'.image

/-- The images of the two devices are these. -/
def Images (img img' : Buf) (d d' : Device) : Prop := d.image = img ∧ d'.image = img'

section Steps

variable {g : Globals} {P : ℕ → Prop} {I : Device → Device → Prop} {img img' : Buf}

theorem print_differ (e : Event) : Alike (Differ P) Eq (print e) (print e) :=
  fun _ _ h => Or.inl ⟨(),(),_,_,rfl,rfl,rfl,h⟩

theorem print_images (e : Event) : Alike (Images img img') Eq (print e) (print e) :=
  fun _ _ h => Or.inl ⟨(),(),_,_,rfl,rfl,rfl,h⟩

theorem block_alike {R : Buf → Buf → Prop} (b : ℕ) (h : ∀ d d', I d d' →
      Option.Rel R (d.image.window (g.areaOffset b) (sectorSizeBytes*(g.blockSize/sectorSizeBytes)))
        (d'.image.window (g.areaOffset b) (sectorSizeBytes*(g.blockSize/sectorSizeBytes)))) :
    Alike I R (g.block b) (g.block b) := by
  intro d d' hd
  have hrel := h d d' hd
  unfold Globals.block readBlock readSectors
  rw [bind_ok (EStateM.run_get d),bind_ok (EStateM.run_get d')]
  unfold Globals.areaOffset at hrel
  revert hrel
  cases d.image.window (blockSector g.partitionEntry.start g.blockSize b*sectorSizeBytes)
      (sectorSizeBytes*(g.blockSize/sectorSizeBytes)) <;>
    cases d'.image.window (blockSector g.partitionEntry.start g.blockSize b*sectorSizeBytes)
      (sectorSizeBytes*(g.blockSize/sectorSizeBytes)) <;> intro hrel <;> cases hrel
  · exact Or.inr ⟨_,d,d',rfl,rfl,hd⟩
  · exact Or.inl ⟨_,_,d,d',rfl,rfl,‹_›,hd⟩

theorem block_same {b : ℕ} (hI : ∀ d d', I d d' → Differ P d d') (hP : ∀ k, g.InArea b k → ¬ P k) :
    Alike I Eq (g.block b) (g.block b) := block_alike b fun d d' hd => by
  rw [(hI d d' hd).window_eq fun k h₁ h₂ => hP k ⟨h₁,h₂⟩]
  cases d'.image.window (g.areaOffset b) (sectorSizeBytes*(g.blockSize/sectorSizeBytes)) with
  | none => exact .none
  | some a => exact .some rfl

theorem readBlocks_same {start n size : ℕ} (hI : ∀ d d', I d d' → Differ P d d')
    (hP : ∀ i < n, ∀ k, g.InArea (u32 (start+i)) k → ¬ P k) :
    Alike I Eq (g.readBlocks start n size) (g.readBlocks start n size) :=
  Alike.foldlM _ (fun i hi b b' hb => by
    subst hb
    exact (block_same hI (hP i (List.mem_range.mp hi))).bind_same fun _ => inBounds_same _) rfl

theorem readGroupDesc_alike {β γ : Type} {S : β → γ → Prop} {group : ℕ} {f : GroupDesc → Fsck β}
    {k : GroupDesc → Fsck γ} (h : ∀ gd, g.groupDesc group = some gd → Alike I S (f gd) (k gd)) :
    Alike I S (readGroupDesc g group >>= f) (readGroupDesc g group >>= k) := by
  unfold readGroupDesc
  unfold Globals.groupDesc at h
  cases hgd : decodeGroupDesc g.groupDescBlock (u32 (group*groupDescSize)) with
  | none => exact fun d d' hd => Or.inr ⟨_,d,d',rfl,rfl,hd⟩
  | some gd => exact h gd hgd

theorem write_same (b : ℕ) (src : Buf) (pos : ℕ) :
    Alike (Differ P) Eq (g.write b src pos) (g.write b src pos) := by
  refine (print_differ _).bind_same fun _ => (inBounds_same _).bind_same fun bytes =>
    (print_differ _).bind_same fun _ => ?_
  exact fun d d' h => Or.inl ⟨(),(),_,_,EStateM.run_modify ..,EStateM.run_modify ..,rfl,h.patch_same _ _⟩

end Steps

/-- The blocks of the inode table that inode `x` lies in. -/
def Globals.TableBlock (g : Globals) (x b : ℕ) : Prop :=
  ∃ gd, g.groupDesc (g.getInodeGroupOffset x) = some gd ∧
    ∃ i < g.getGroupInodeBlockNum, b = u32 (gd.bgInodeTable+i)

section Inodes

variable {g : Globals} {P : ℕ → Prop} {I : Device → Device → Prop} {x : ℕ}

theorem readInode_same (hI : ∀ d d', I d d' → Differ P d d')
    (hP : ∀ b, g.TableBlock x b → ∀ k, g.InArea b k → ¬ P k) :
    Alike I Eq (g.readInode x) (g.readInode x) :=
  (checkDivisor_same _).bind_same fun _ => readGroupDesc_alike fun gd hgd =>
    (readBlocks_same hI fun i hi => hP _ ⟨gd,hgd,i,hi,rfl⟩).bind_same fun _ => inBounds_same _

theorem writeInode_same (hP : ∀ b, g.TableBlock x b → ∀ k, g.InArea b k → ¬ P k) (v : ℕ) :
    Alike (Differ P) Eq (g.writeInode x v) (g.writeInode x v) :=
  (checkDivisor_same _).bind_same fun _ => readGroupDesc_alike fun gd hgd =>
    (readBlocks_same (fun _ _ h => h) fun i hi => hP _ ⟨gd,hgd,i,hi,rfl⟩).bind_same fun _ =>
      (inBounds_same _).bind_same fun _ => write_same _ _ _

theorem pass3Step_same (hP : ∀ b, g.TableBlock x b → ∀ k, g.InArea b k → ¬ P k) (counts : Buf) :
    Alike (Differ P) Eq (pass3Step g counts x) (pass3Step g counts x) := by
  refine (readInode_same (fun _ _ h => h) hP).bind_same fun inode => (inBounds_same _).bind_same
    fun c => ?_
  split
  · exact (print_differ _).bind_same fun _ => writeInode_same hP _
  · exact .pure rfl

/-- The place of a byte of a link count, in an inode table and in the image. -/
def LinkByte (k : ℕ) : Prop := k%inodeSize = 26 ∨ k%inodeSize = 27

theorem linkByte_add {off k : ℕ} (h : off%inodeSize = 0) : LinkByte (off+k) ↔ LinkByte k := by
  unfold LinkByte
  rw [Nat.add_mod,h,Nat.zero_add,Nat.mod_mod]

/-- The two inodes differ at most in the link count. -/
def SameButLinks (inode inode' : Inode) : Prop :=
  inode' = { inode with iLinksCount := inode'.iLinksCount }

theorem parse_congr {a b : Buf} {start len : ℕ} (hs : a.size = b.size)
    (h : ∀ k < len, a.byte (start+k) = b.byte (start+k)) : parse a start len = parse b start len := by
  unfold parse
  rw [hs,parseBytesToDecimalU_eq,parseBytesToDecimalU_eq,num_congr h]

theorem mapM_congr {α β : Type} {f h : α → Option β} (l : List α) (hf : ∀ a ∈ l, f a = h a) :
    l.mapM f = l.mapM h := by
  induction l with
  | nil => rfl
  | cons a l ih => rw [List.mapM_cons,List.mapM_cons,hf a (by simp),ih fun b hb => hf b (by simp [hb])]

theorem decodeInode_links {t t' : Buf} (h : AgreeOff LinkByte t t') {off : ℕ}
    (hoff : off%inodeSize = 0) :
    Option.Rel SameButLinks (decodeInode t off) (decodeInode t' off) := by
  have hfield : ∀ p len, p+len ≤ 26 ∨ 28 ≤ p ∧ p+len ≤ inodeSize →
      parse t (off+p) len = parse t' (off+p) len := fun p len hp =>
    parse_congr h.size_eq fun k hk => h.byte_eq _ fun hlink => by
      rw [Nat.add_assoc,linkByte_add hoff] at hlink
      unfold LinkByte at hlink
      simp only [inodeSize] at *
      omega
  have hzero := hfield 0 2 (by decide)
  have hlinks : Option.Rel (fun _ _ => True) (parse t (off+26) 2) (parse t' (off+26) 2) := by
    unfold parse
    rw [h.size_eq]
    split
    · exact .some trivial
    · exact .none
  have hblocks : (List.range ext2NBlocks).mapM (fun i => parse t (off+40+i*4) 4) =
      (List.range ext2NBlocks).mapM fun i => parse t' (off+40+i*4) 4 := by
    refine mapM_congr _ fun i hi => ?_
    have hi' : i < 15 := List.mem_range.mp hi
    rw [Nat.add_assoc]
    exact hfield (40+i*4) 4 (by simp only [inodeSize]; omega)
  unfold decodeInode
  rw [Nat.add_zero] at hzero
  rw [hzero,hfield 2 2 (by decide),hfield 4 4 (by decide),hfield 8 4 (by decide),
    hfield 12 4 (by decide),hfield 16 4 (by decide),hfield 20 4 (by decide),hfield 24 2 (by decide),
    hfield 28 4 (by decide),hfield 32 4 (by decide),hblocks]
  iterate 8 refine rel_same fun _ => ?_
  refine rel_bind hlinks fun _ _ _ => ?_
  iterate 3 refine rel_same fun _ => ?_
  exact .some rfl

theorem areaOffset_mod (b : ℕ) : g.areaOffset b%inodeSize = 0 :=
  Nat.mod_eq_zero_of_dvd (Dvd.dvd.mul_left (by decide) _)

theorem readInode_links_in (hI : ∀ d d', I d d' → Differ P d d')
    (hP : ∀ b, g.TableBlock x b → ∀ k, g.InArea b k → P k → LinkByte k) (hdvd : sectorSizeBytes ∣ g.blockSize) :
    Alike I SameButLinks (g.readInode x) (g.readInode x) := by
  refine (checkDivisor_same _).bind_same fun _ => readGroupDesc_alike fun gd hgd =>
    Alike.bind (R := AgreeOff LinkByte) ?_ fun t t' ht => inBounds_alike (decodeInode_links ht ?_)
  · refine Alike.foldlM _ (fun i hi t t' ht => ?_) (.refl _ _)
    have harea := hP _ ⟨gd,hgd,i,List.mem_range.mp hi,rfl⟩
    refine (block_alike (R := AgreeOff LinkByte) _ fun d d' hd => ?_).bind fun b b' hb => inBounds_alike ?_
    · have hagree := hI d d' hd
      unfold Buf.window
      rw [hagree.size_eq]
      split
      · refine .some ⟨rfl,fun k hk => ?_⟩
        by_cases hlt : k < sectorSizeBytes*(g.blockSize/sectorSizeBytes)
        · rw [slice_byte _ hlt,slice_byte _ hlt]
          refine hagree.byte_eq _ fun hp => hk ?_
          exact (linkByte_add (areaOffset_mod _)).mp (harea _ ⟨by omega,by omega⟩ hp)
        · rw [past_end _ k (by simpa using hlt),past_end _ k (by simpa using hlt)]
      · exact .none
    · unfold Buf.overlay
      rw [ht.size_eq,hb.size_eq]
      split
      · refine .some (ht.patch hb fun k => (linkByte_add ?_).mpr)
        exact Nat.mod_eq_zero_of_dvd (Dvd.dvd.mul_right (Dvd.dvd.trans (by decide) hdvd) _)
      · exact .none
  · unfold u32
    rw [Nat.mod_mod_of_dvd _ (by decide)]
    exact Nat.mul_mod_left _ _

theorem readInode_links (hI : ∀ d d', I d d' → Differ P d d') (hP : ∀ k, P k → LinkByte k)
    (hdvd : sectorSizeBytes ∣ g.blockSize) :
    Alike I SameButLinks (g.readInode x) (g.readInode x) :=
  readInode_links_in hI (fun _ _ k _ => hP k) hdvd

end Inodes

/-- The inode `read_inode` gives on an image, and the block `read_block` gives. -/
def Globals.inodeIn (g : Globals) (img : Buf) (x : ℕ) : Option Inode := valueIn (g.readInode x) ⟨img,[]⟩

def Globals.blockIn (g : Globals) (img : Buf) (b : ℕ) : Option Buf := valueIn (g.block b) ⟨img,[]⟩

/-- The blocks of a directory, and the entries of a block, as these give them. -/
def Globals.dirBlocksIn (g : Globals) (img : Buf) (x : ℕ) : List ℕ :=
  ((g.inodeIn img x).map fun inode => inode.iBlock.takeWhile (· ≠ 0)).getD []

def Globals.blockEntriesIn (g : Globals) (img : Buf) (b : ℕ) : List (ℕ × DirEntry) :=
  ((g.blockIn img b).map entriesOf).getD []

theorem dirBlocksIn_eq {g : Globals} {img : Buf} {x : ℕ} {inode : Inode} (h : g.inodeIn img x = some inode) :
    g.dirBlocksIn img x = inode.iBlock.takeWhile (· ≠ 0) := by
  rw [Globals.dirBlocksIn,h,Option.map_some,Option.getD_some]

/-- The inodes a walk from the root comes to: it goes through the blocks of those that `enters` takes
for directories, and follows the entries that `goes` lets it follow, but for the first two of a first
block. -/
inductive Visited (g : Globals) (img : Buf) (enters : Inode → Bool) (goes : DirEntry → Bool) : ℕ → Prop
  | root : Visited g img enters goes rootInodeNum
  | entry {x i b count : ℕ} {inode : Inode} {blk : Buf} {e : DirEntry} : Visited g img enters goes x →
      g.inodeIn img x = some inode → enters inode = true →
      (inode.iBlock.takeWhile (· ≠ 0))[i]? = some b → g.blockIn img b = some blk →
      (metFrom g.blockSize blk g.blockSize 0).1[count]? = some e → i ≠ 0 ∨ 2 ≤ count →
      goes e = true → Visited g img enters goes e.inode

/-- The blocks such a walk goes through. -/
def VisitedBlock (g : Globals) (img : Buf) (enters : Inode → Bool) (goes : DirEntry → Bool) (b : ℕ) :
    Prop := ∃ x inode, Visited g img enters goes x ∧ g.inodeIn img x = some inode ∧
      enters inode = true ∧ b ∈ inode.iBlock.takeWhile (· ≠ 0)

/-- `get_true_block_bitmap` takes it for a directory. -/
def takenForDir (inode : Inode) : Bool := !(inodeIsLnk inode) && !(inodeIsReg inode)

/-- The walk of `directory_traversor`, and that of `get_true_block_bitmap`. -/
def Counted (g : Globals) (img : Buf) : ℕ → Prop := Visited g img (fun _ => true) dirIsDir

def Mapped (g : Globals) (img : Buf) : ℕ → Prop := Visited g img takenForDir fun _ => true

section Loops

variable {σ τ : Type} {I : Device → Device → Prop} {R : σ → τ → Prop}

theorem forBlocks_alike_at {body : ℕ → ℕ → σ → Fsck σ} {body' : ℕ → ℕ → τ → Fsck τ} {bs : List ℕ} {i : ℕ}
    (h : ∀ j b, (bs.takeWhile (· ≠ 0))[j]? = some b → ∀ s t, R s t →
      Alike I R (body (i+j) b s) (body' (i+j) b t)) {s : σ} {t : τ} (hst : R s t) :
    Alike I R (forBlocks body i bs s) (forBlocks body' i bs t) := by
  induction bs generalizing i s t with
  | nil => exact .pure hst
  | cons b bs ih =>
    rw [forBlocks,forBlocks]
    by_cases hb : b = 0
    · rw [if_pos hb,if_pos hb]
      exact .pure hst
    · rw [if_neg hb,if_neg hb]
      rw [List.takeWhile_cons_of_pos (by simpa using hb)] at h
      refine (h 0 b rfl s t hst).bind fun s' t' hst' => ih (fun j c hc s t hst => ?_) hst'
      have hnext := h (j+1) c hc s t hst
      rwa [show i+(j+1) = i+1+j by omega] at hnext

theorem scanEntries_alike_at {n : ℕ} {blk : Buf} {body : ℕ → ℕ → DirEntry → σ → Fsck σ}
    {body' : ℕ → ℕ → DirEntry → τ → Fsck τ} {turns off count : ℕ}
    (h : ∀ k e, (metFrom n blk turns off).1[k]? = some e → ∀ o s t, R s t →
      Alike I R (body (count+k) o e s) (body' (count+k) o e t)) {s : σ} {t : τ} (hst : R s t) :
    Alike I R (scanEntries n (fun _ => blk) body turns off count s)
      (scanEntries n (fun _ => blk) body' turns off count t) := by
  induction turns generalizing off count s t with
  | zero =>
    rw [scanEntries,scanEntries]
    split
    · exact .throw _
    · exact .pure hst
  | succ turns ih =>
    rw [scanEntries,scanEntries]
    rw [metFrom] at h
    split
    · rename_i hlt
      rw [if_pos hlt] at h
      cases hread : readDirEntryInBlock blk off with
      | none => exact .throw _
      | some r =>
        cases r with
        | none => exact .pure hst
        | some e =>
          rw [hread] at h
          refine (h 0 e rfl off s t hst).bind fun s' t' hst' => ih (fun k c hc o s t hst => ?_) hst'
          have hnext := h (k+1) c hc o s t hst
          rwa [show count+(k+1) = count+1+k by omega] at hnext
    · exact .pure hst

end Loops

theorem SameRun.valueIn_eq {α : Type} {x : Fsck α} (h : SameRun x x) {d : Device} {img : Buf}
    (hd : d.image = img) : valueIn x d = valueIn x ⟨img,[]⟩ := Alike.valueIn_eq h hd

theorem SameRun.run_eq {α : Type} {x : Fsck α} (h : SameRun x x) (hread : ReadOnly x) {a : α}
    {img : Buf} (ha : valueIn x ⟨img,[]⟩ = some a) {d : Device} (hd : d.image = img) : x.run d = .ok a d := by
  rw [← h.valueIn_eq hd,valueIn] at ha
  cases hrun : x.run d with
  | error e d' =>
    rw [hrun] at ha
    cases ha
  | ok b d' =>
    rw [hrun] at ha
    obtain rfl := hread.state_eq hrun
    rw [Option.some.inj ha]

theorem met_inode_pos {n turns off : ℕ} {blk : Buf} {e : DirEntry}
    (he : e ∈ (metFrom n blk turns off).1) : 1 ≤ e.inode := by
  induction turns generalizing off with
  | zero => cases he
  | succ turns ih =>
    rw [metFrom] at he
    split at he
    · cases hread : readDirEntryInBlock blk off with
      | none =>
        rw [hread] at he
        cases he
      | some r =>
        rw [hread] at he
        cases r with
        | none => cases he
        | some e' =>
          rcases List.mem_cons.mp he with rfl | he
          · unfold readDirEntryInBlock at hread
            simp only [Option.bind_eq_bind,Option.bind_eq_some_iff] at hread
            obtain ⟨inode,_,hread⟩ := hread
            split at hread
            · cases hread
            · simp only [Option.bind_eq_some_iff] at hread
              obtain ⟨_,_,_,_,_,_,_,_,hread⟩ := hread
              cases hread
              simp only
              omega
          · exact ih he
    · cases he

section Counting

variable {g : Globals} {P : ℕ → Prop} {img img' : Buf}

theorem countUp_size {c c' : Buf} {n : ℕ} (h : countUp c n = some c') : n < c.size ∧ c'.size = c.size := by
  unfold countUp Buf.load Buf.store at h
  by_cases hn : n < c.size
  · simp only [hn,if_true,Option.bind_eq_bind,Option.bind_some,Option.some.injEq] at h
    rw [← h]
    exact ⟨hn,rfl⟩
  · simp [hn] at h

theorem directoryTraversor_alike (hagree : AgreeOff P img img')
    (hread : ∀ x, Counted g img x → 1 ≤ x → x ≤ g.superBlock.sInodesCount →
      Alike (Images img img') SameButLinks (g.readInode x) (g.readInode x))
    (hdir : ∀ b, VisitedBlock g img (fun _ => true) dirIsDir b → ∀ k, g.InArea b k → ¬ P k) (fuel : ℕ)
    {counts : Buf} {x : ℕ} (hx : Counted g img x) (h1 : 1 ≤ x) (hle : x ≤ g.superBlock.sInodesCount)
    (hc : counts.size ≤ g.superBlock.sInodesCount+1) :
    Alike (Images img img') (fun c c' => c = c' ∧ c.size ≤ g.superBlock.sInodesCount+1)
      (directoryTraversor g fuel counts x) (directoryTraversor g fuel counts x) := by
  have hI : ∀ d d', Images img img' d d' → Differ P d d' := fun d d' hd => by
    unfold Differ
    rw [hd.1,hd.2]
    exact hagree
  induction fuel generalizing counts x with
  | zero => exact .throw _
  | succ fuel ih =>
    rw [directoryTraversor]
    refine ((hread x hx h1 hle).value fun d d' hd =>
      SameRun.valueIn_eq (SameRun.readInode g x) hd.1).bind fun inode inode' hin => ?_
    obtain ⟨hin,hsame⟩ := hin
    rw [show inode'.iBlock = inode.iBlock by rw [show inode' = _ from hsame]]
    refine forBlocks_alike_at (fun i b hb c c' hc => ?_) ⟨rfl,hc⟩
    obtain ⟨rfl,hc⟩ := hc
    have hvisit : VisitedBlock g img (fun _ => true) dirIsDir b :=
      ⟨x,inode,hx,hin,rfl,List.mem_of_getElem? hb⟩
    refine ((block_same hI (hdir b hvisit)).value fun d d' hd =>
      SameRun.valueIn_eq (SameRun.block g b) hd.1).bind fun blk blk' hblk => ?_
    obtain ⟨hblk,rfl⟩ := hblk
    refine scanEntries_alike_at (fun count e he o c c' hc => ?_) ⟨rfl,hc⟩
    obtain ⟨rfl,hc⟩ := hc
    rw [Nat.zero_add,Nat.zero_add]
    cases hup : countUp c e.inode with
    | none => exact .throw _
    | some c₁ =>
      obtain ⟨hlt,hsize⟩ := countUp_size hup
      have hc₁ : c₁.size ≤ g.superBlock.sInodesCount+1 := by omega
      refine (Alike.pure (R := fun a b => a = c₁ ∧ a = b) ⟨rfl,rfl⟩).bind fun a a' ha => ?_
      obtain ⟨rfl,rfl⟩ := ha
      split
      · rename_i hplace
        split
        · rename_i hd
          exact ih (.entry hx hin rfl hb hblk he hplace hd) (met_inode_pos (List.mem_of_getElem? he))
            (by omega) hc₁
        · exact .pure ⟨rfl,hc₁⟩
      · exact .pure ⟨rfl,hc₁⟩

theorem directoryTraversor_same (hagree : AgreeOff P img img')
    (htab : ∀ x, 1 ≤ x → x ≤ g.superBlock.sInodesCount → ∀ b, g.TableBlock x b → ∀ k, g.InArea b k → ¬ P k)
    (hdir : ∀ b, VisitedBlock g img (fun _ => true) dirIsDir b → ∀ k, g.InArea b k → ¬ P k) (fuel : ℕ)
    {counts : Buf} {x : ℕ} (hx : Counted g img x) (h1 : 1 ≤ x) (hle : x ≤ g.superBlock.sInodesCount)
    (hc : counts.size ≤ g.superBlock.sInodesCount+1) :
    Alike (Images img img') (fun c c' => c = c' ∧ c.size ≤ g.superBlock.sInodesCount+1)
      (directoryTraversor g fuel counts x) (directoryTraversor g fuel counts x) :=
  directoryTraversor_alike hagree (fun y _ hy hyle => (readInode_same (fun d d' hd => by
    unfold Differ
    rw [hd.1,hd.2]
    exact hagree) (htab y hy hyle)).mono fun inode inode' he => by rw [← he]; rfl) hdir fuel hx h1 hle hc

theorem pass3_differ {d d' e : Device} {fuel : ℕ} {u : Unit} (hd : Differ P d d')
    (hroot : rootInodeNum ≤ g.superBlock.sInodesCount)
    (htab : ∀ x, 1 ≤ x → x ≤ g.superBlock.sInodesCount → ∀ b, g.TableBlock x b → ∀ k, g.InArea b k → ¬ P k)
    (hdir : ∀ b, VisitedBlock g d.image (fun _ => true) dirIsDir b → ∀ k, g.InArea b k → ¬ P k)
    (h : (pass3 g fuel).run d = .ok u e) :
    ∃ e', (pass3 g fuel).run d' = .ok () e' ∧ Differ P e e' := by
  unfold pass3 at h ⊢
  obtain ⟨counts,t,hwalk,hloop⟩ := bind_ok_inv h
  obtain rfl := (directoryTraversor_readOnly g _ _ _).state_eq hwalk
  have hsize : (calloc (g.superBlock.sInodesCount+1)).size ≤ g.superBlock.sInodesCount+1 := Nat.mod_le _ _
  rcases directoryTraversor_same hd htab hdir fuel .root (by decide) hroot hsize t d' ⟨rfl,rfl⟩ with
    ⟨c,c',t₁,t',hrun,hrun',⟨rfl,_⟩,_⟩ | ⟨_,_,_,hrun,_⟩
  · rw [hwalk] at hrun
    cases hrun
    obtain rfl := (directoryTraversor_readOnly g _ _ _).state_eq hrun'
    rw [bind_ok hrun']
    have hsteps := Alike.foldlM (I := Differ P) (R := fun _ _ : Unit => True)
      (List.range' 1 g.superBlock.sInodesCount) (fun i hi _ _ _ => by
        have hi' := List.mem_range'_1.mp hi
        exact (pass3Step_same (htab i (by omega) (by omega)) counts).mono fun _ _ _ => trivial)
      (a := ()) (b := ()) trivial
    rcases hsteps t t' hd with ⟨_,_,t₂,t₂',hl,hl',_,hdiffer⟩ | ⟨_,_,_,hl,_⟩
    · rw [hloop] at hl
      cases hl
      exact ⟨t₂',hl',hdiffer⟩
    · rw [hloop] at hl
      cases hl
  · rw [hwalk] at hrun
    cases hrun

end Counting

section Links

variable {g : Globals}

theorem block_ok {b : ℕ} {d d' : Device} {blk : Buf} (h : (g.block b).run d = .ok blk d') :
    g.areaOffset b+sectorSizeBytes*(g.blockSize/sectorSizeBytes) ≤ d.image.size ∧
      blk = d.image.slice (g.areaOffset b) (sectorSizeBytes*(g.blockSize/sectorSizeBytes)) := by
  unfold Globals.block readBlock readSectors at h
  rw [bind_ok (EStateM.run_get d)] at h
  unfold Globals.areaOffset
  by_cases hin : blockSector g.partitionEntry.start g.blockSize b*sectorSizeBytes+
      sectorSizeBytes*(g.blockSize/sectorSizeBytes) ≤ d.image.size
  · rw [window_eq hin] at h
    cases h
    exact ⟨hin,rfl⟩
  · rw [Buf.window,if_neg hin] at h
    cases h

theorem readBlocks_ok (hdvd : sectorSizeBytes ∣ g.blockSize) {start n size : ℕ} {d d' : Device} {t : Buf}
    (h : (g.readBlocks start n size).run d = .ok t d') : t.size = size ∧ ∀ i < n,
      i*g.blockSize+g.blockSize ≤ size ∧ g.areaOffset (u32 (start+i))+g.blockSize ≤ d.image.size ∧
      ∀ j < g.blockSize, t.byte (i*g.blockSize+j) = d.image.byte (g.areaOffset (u32 (start+i))+j) := by
  have hbs : sectorSizeBytes*(g.blockSize/sectorSizeBytes) = g.blockSize := Nat.mul_div_cancel' hdvd
  unfold Globals.readBlocks at h
  induction n generalizing t d' with
  | zero =>
    cases h
    exact ⟨rfl,fun i hi => absurd hi (Nat.not_lt_zero i)⟩
  | succ n ih =>
    rw [List.range_succ,List.foldlM_append] at h
    obtain ⟨t₀,d₀,hinit,hlast⟩ := bind_ok_inv h
    obtain ⟨hsize,hbytes⟩ := ih hinit
    rw [List.foldlM_cons] at hlast
    obtain ⟨t₁,d₁,hstep,hnil⟩ := bind_ok_inv hlast
    cases hnil
    obtain ⟨blk,d₂,hblock,hover⟩ := bind_ok_inv hstep
    have hd₀ : d₀ = d := (ReadOnly.foldlM _ (fun _ _ => (block_readOnly g _).bind fun _ =>
      inBounds_readOnly _) _).state_eq hinit
    obtain ⟨hin,hblk⟩ := block_ok hblock
    rw [hd₀,hbs] at hin
    rw [hd₀,hbs] at hblk
    have hlay := inBounds_ok hover
    have hblks : blk.size = g.blockSize := by rw [hblk,slice_size]
    obtain ⟨hfit,rfl⟩ := overlay_some hlay
    rw [Nat.mul_comm] at hfit ⊢
    refine ⟨(patch_size_of_le hfit).trans hsize,fun i hi => ?_⟩
    rcases Nat.lt_succ_iff_lt_or_eq.mp hi with hlt | rfl
    · obtain ⟨hle,hin',hb⟩ := hbytes i hlt
      refine ⟨hle,hin',fun j hj => ?_⟩
      have hmul := Nat.mul_le_mul_right g.blockSize hlt
      rw [Nat.succ_mul] at hmul
      rw [patch_byte_out (by omega),hb j hj]
    · refine ⟨by omega,hin,fun j hj => ?_⟩
      rw [patch_byte_in (by omega) (by omega),Nat.add_sub_cancel_left,hblk,slice_byte _ hj]

/-- The bytes of the link counts of the inode tables. -/
def Globals.LinkPlace (g : Globals) (k : ℕ) : Prop :=
  LinkByte k ∧ ∃ x b, 1 ≤ x ∧ x ≤ g.superBlock.sInodesCount ∧ g.TableBlock x b ∧ g.InArea b k

theorem writeInode_frame (hdvd : sectorSizeBytes ∣ g.blockSize) {x v : ℕ} (h1 : 1 ≤ x)
    (hle : x ≤ g.superBlock.sInodesCount) {d d' : Device} {u : Unit}
    (h : (g.writeInode x v).run d = .ok u d') : AgreeOff g.LinkPlace d.image d'.image := by
  have hbs : sectorSizeBytes*(g.blockSize/sectorSizeBytes) = g.blockSize := Nat.mul_div_cancel' hdvd
  unfold Globals.writeInode at h
  replace h := (checkDivisor_inv h).2
  obtain ⟨gd,hgd,h₁⟩ := (readGroupDesc_readOnly g _).bind_inv h
  obtain ⟨t,ht,h₂⟩ := (readBlocks_readOnly g _ _ _).bind_inv h₁
  obtain ⟨t',ht',h₃⟩ := (inBounds_readOnly _).bind_inv h₂
  clear h h₁ h₂
  replace hgd := inBounds_ok hgd
  replace ht' := inBounds_ok ht'
  obtain ⟨hsize,hbytes⟩ := readBlocks_ok hdvd ht
  generalize hoff : u32 (g.getInodeOffsetInGroup x*inodeSize) = off at h₃ ht'
  have hmod : off%g.blockSize%inodeSize = 0 := by
    rw [Nat.mod_mod_of_dvd _ (Dvd.dvd.trans (by decide) hdvd),← hoff,u32,Nat.mod_mod_of_dvd _ (by decide)]
    exact Nat.mul_mod_left _ _
  generalize off%g.blockSize = pos at h₃ ht' hmod
  generalize off/g.blockSize = index at h₃ ht'
  unfold writeNumberIntoBlock at ht'
  split at ht'
  swap
  · cases ht'
  rename_i hin
  cases ht'
  unfold Globals.write writeBlock at h₃
  obtain ⟨_,d₄,hp,h₄⟩ := bind_ok_inv h₃
  cases hp
  obtain ⟨bytes,hb,h₅⟩ := (inBounds_readOnly _).bind_inv h₄
  unfold writeSectors at h₅
  obtain ⟨_,d₆,hp,h₆⟩ := bind_ok_inv h₅
  cases hp
  cases h₆
  clear h₃ h₄ h₅
  replace hb := inBounds_ok hb
  unfold Buf.window at hb
  split at hb
  swap
  · cases hb
  rename_i hwin
  cases hb
  rw [hbs,putNum_size] at hwin
  have hcount : g.getGroupInodeBlockNum*g.blockSize ≥ t.size := by
    rw [hsize]
    exact Nat.mod_le _ _
  have hindex : index < g.getGroupInodeBlockNum := by
    by_contra hge
    have hmul := Nat.mul_le_mul_right g.blockSize (Nat.not_lt.mp hge)
    omega
  obtain ⟨-,harea,hbyte⟩ := hbytes index hindex
  rw [hbs]
  refine AgreeOff.patch_self harea fun j hj hno => ?_
  rw [slice_size] at hj
  rw [slice_byte _ hj]
  by_cases hlink : pos+26 ≤ j ∧ j < pos+26+2
  · refine absurd ⟨?_,x,_,h1,hle,⟨gd,hgd,index,hindex,rfl⟩,?_⟩ hno
    · rw [show blockSector g.partitionEntry.start g.blockSize (u32 (gd.bgInodeTable+index))*sectorSizeBytes =
        g.areaOffset (u32 (gd.bgInodeTable+index)) from rfl,linkByte_add (areaOffset_mod _)]
      have hj' : j = pos+26 ∨ j = pos+27 := by omega
      rcases hj' with rfl | rfl
      · rw [linkByte_add hmod]
        exact Or.inl rfl
      · rw [linkByte_add hmod]
        exact Or.inr rfl
    · unfold Globals.InArea Globals.areaOffset
      rw [hbs]
      omega
  · rw [putNum_byte_out (by omega),hbyte j hj]
    rfl

theorem pass3Step_frame (hdvd : sectorSizeBytes ∣ g.blockSize) {x : ℕ} (h1 : 1 ≤ x)
    (hle : x ≤ g.superBlock.sInodesCount) {counts : Buf} {d d' : Device} {u : Unit}
    (h : (pass3Step g counts x).run d = .ok u d') : AgreeOff g.LinkPlace d.image d'.image := by
  unfold pass3Step at h
  obtain ⟨inode,_,h₁⟩ := (readInode_readOnly g x).bind_inv h
  obtain ⟨c,_,h₂⟩ := (inBounds_readOnly _).bind_inv h₁
  split at h₂
  · obtain ⟨_,d₁,hp,h₃⟩ := bind_ok_inv h₂
    cases hp
    have hframe := writeInode_frame hdvd h1 hle h₃
    exact hframe
  · cases h₂
    exact .refl _ _

theorem pass3Step_triple (hdvd : sectorSizeBytes ∣ g.blockSize) (counts img : Buf) {i : ℕ}
    (hi : i ∈ List.range' 1 g.superBlock.sInodesCount) :
    Triple (fun (s : Device) => AgreeOff g.LinkPlace img s.image) (pass3Step g counts i)
      (fun _ s => AgreeOff g.LinkPlace img s.image) fun _ => True := by
  intro s hs
  have hi' := List.mem_range'_1.mp hi
  cases hrun : (pass3Step g counts i).run s with
  | error e s' => trivial
  | ok a s' => exact hs.trans (pass3Step_frame hdvd (by omega) (by omega) hrun)

theorem pass3_frame (hdvd : sectorSizeBytes ∣ g.blockSize) {fuel : ℕ} {d d' : Device} {u : Unit}
    (h : (pass3 g fuel).run d = .ok u d') : AgreeOff g.LinkPlace d.image d'.image := by
  unfold pass3 at h
  obtain ⟨counts,t,hwalk,hloop⟩ := bind_ok_inv h
  obtain rfl := (directoryTraversor_readOnly g _ _ _).state_eq hwalk
  have hsteps := Triple.foldlM (List.range' 1 g.superBlock.sInodesCount)
    (fun _ i hi => pass3Step_triple hdvd counts t.image hi) () t (.refl _ _)
  rw [hloop] at hsteps
  exact hsteps

end Links

/-- The second-level pointer blocks that are read for a file of `n` blocks, from byte `i` of the
double-indirect block on, with `k` blocks counted. -/
def Globals.secondReads (g : Globals) (n : ℕ) (p : Buf) : (turns i k : ℕ) → List ℕ
  | 0, _, _ => []
  | turns+1, i, k =>
    match parse p i 4 with
    | none => []
    | some b => b :: if k < n ∧ n ≤ k+pointersPerBlock g then []
        else g.secondReads n p turns (i+4) (k+pointersPerBlock g)

/-- The pointer blocks that are read for a file. -/
def Globals.pointerReads (g : Globals) (img : Buf) (inode : Inode) : List ℕ :=
  let n := fileBlockNum g inode
  let ind := inode.iBlock.getD ext2IndBlock 0
  let dind := inode.iBlock.getD ext2DindBlock 0
  if n ≤ ext2NdirBlocks then []
  else if n ≤ indirectMaxBlock then [ind]
  else if n ≤ doubleIndirectMaxBlock then
    ind :: dind :: match g.blockIn img dind with
      | none => []
      | some p => g.secondReads n p (pointersPerBlock g) 0 (ext2NdirBlocks+pointersPerBlock g)
  else []

/-- The pointer blocks the walk of `get_true_block_bitmap` reads. -/
def MappedPointer (g : Globals) (img : Buf) (b : ℕ) : Prop :=
  ∃ x inode, Mapped g img x ∧ g.inodeIn img x = some inode ∧ inodeIsLnk inode = false ∧
    inodeIsReg inode = true ∧ b ∈ g.pointerReads img inode

theorem inBounds_alike_bind {α β γ : Type} {I : Device → Device → Prop} {S : β → γ → Prop} {o : Option α}
    {f : α → Fsck β} {k : α → Fsck γ} (h : ∀ a, o = some a → Alike I S (f a) (k a)) :
    Alike I S (inBounds o >>= f) (inBounds o >>= k) := by
  cases o with
  | none => exact fun d d' hd => Or.inr ⟨_,d,d',rfl,rfl,hd⟩
  | some a => exact h a rfl

theorem markPointers_count {p : Buf} {n turns i k : ℕ} {bm : Buf} {r : Buf × ℕ × Bool}
    (h : markPointers p n turns i k bm = some r) (hr : r.2.2 = false) :
    r.2.1 = k+turns ∧ ¬ (k < n ∧ n ≤ k+turns) := by
  induction turns generalizing i k bm with
  | zero =>
    cases h
    exact ⟨rfl,by omega⟩
  | succ turns ih =>
    simp only [markPointers,Option.bind_eq_bind,Option.bind_eq_some_iff] at h
    obtain ⟨_,_,bm',_,h⟩ := h
    split at h
    · cases h
      cases hr
    · obtain ⟨hk,hno⟩ := ih h
      exact ⟨by omega,by omega⟩

section Mapping

variable {g : Globals} {P : ℕ → Prop} {img img' : Buf} (hagree : AgreeOff P img img')

include hagree

theorem images_differ (d d' : Device) (hd : Images img img' d d') : Differ P d d' := by
  unfold Differ
  rw [hd.1,hd.2]
  exact hagree

theorem block_value {b : ℕ} (hP : ∀ k, g.InArea b k → ¬ P k) :
    Alike (Images img img') (fun blk blk' => g.blockIn img b = some blk ∧ blk = blk') (g.block b)
      (g.block b) :=
  (block_same (images_differ hagree) hP).value fun _ _ hd =>
    SameRun.valueIn_eq (SameRun.block g b) hd.1

theorem markSecondLevel_same (p : Buf) {n turns i k : ℕ}
    (hP : ∀ b ∈ g.secondReads n p turns i k, ∀ k, g.InArea b k → ¬ P k) (bm : Buf) :
    Alike (Images img img') Eq (markSecondLevel g p n turns i k bm) (markSecondLevel g p n turns i k bm) := by
  induction turns generalizing i k bm with
  | zero => exact .pure rfl
  | succ turns ih =>
    rw [markSecondLevel]
    refine inBounds_alike_bind fun b hb => ?_
    rw [Globals.secondReads,hb] at hP
    refine (inBounds_same _).bind_same fun bm => (block_same (images_differ hagree) (hP b (by simp))).bind_same
      fun p₂ => inBounds_alike_bind fun r hr => ?_
    cases hret : r.2.2 with
    | true =>
      obtain ⟨bm',k',returned⟩ := r
      cases hret
      exact .pure rfl
    | false =>
      obtain ⟨hk,hno⟩ := markPointers_count hr hret
      obtain ⟨bm',k',returned⟩ := r
      cases hret
      cases hk
      rw [if_neg hno] at hP
      exact ih (fun b hb => hP b (List.mem_cons_of_mem _ hb)) bm'

theorem getFileBlockBitmap_same {inode : Inode}
    (hP : ∀ b ∈ g.pointerReads img inode, ∀ k, g.InArea b k → ¬ P k) (bm : Buf) :
    Alike (Images img img') Eq (getFileBlockBitmap g bm inode) (getFileBlockBitmap g bm inode) := by
  unfold Globals.pointerReads at hP
  unfold getFileBlockBitmap
  dsimp only at hP ⊢
  split
  · exact inBounds_same _
  · rename_i h12
    rw [if_neg h12] at hP
    split
    · rename_i h268
      rw [if_pos h268] at hP
      refine (inBounds_same _).bind_same fun _ => (inBounds_same _).bind_same fun _ =>
        (block_same (images_differ hagree) (hP _ (by simp))).bind_same fun _ => (inBounds_same _).bind_same
          fun _ => .pure rfl
    · rename_i h268
      rw [if_neg h268] at hP
      split
      · rename_i hmax
        rw [if_pos hmax] at hP
        refine (inBounds_same _).bind_same fun _ => (inBounds_same _).bind_same fun _ =>
          (block_same (images_differ hagree) (hP _ (by simp))).bind_same fun _ => (inBounds_same _).bind_same
            fun _ => (inBounds_same _).bind_same fun _ => ?_
        refine (block_value hagree (hP _ (by simp))).bind fun p p' hp => ?_
        obtain ⟨hp,rfl⟩ := hp
        rw [hp] at hP
        exact markSecondLevel_same hagree p (fun b hb => hP b (by simp [hb])) _
      · exact (print_images _).bind_same fun _ => .pure rfl

theorem getTrueBlockBitmap_same (hread : ∀ x, Mapped g img x →
      Alike (Images img img') SameButLinks (g.readInode x) (g.readInode x))
    (hdir : ∀ b, VisitedBlock g img takenForDir (fun _ => true) b → ∀ k, g.InArea b k → ¬ P k)
    (hptr : ∀ b, MappedPointer g img b → ∀ k, g.InArea b k → ¬ P k) (fuel : ℕ) {x : ℕ} (hx : Mapped g img x)
    (bm : Buf) :
    Alike (Images img img') Eq (getTrueBlockBitmap g fuel bm x) (getTrueBlockBitmap g fuel bm x) := by
  induction fuel generalizing bm x with
  | zero => exact .throw _
  | succ fuel ih =>
    rw [getTrueBlockBitmap]
    refine ((hread x hx).value fun _ _ hd =>
      SameRun.valueIn_eq (SameRun.readInode g x) hd.1).bind fun inode inode' h => ?_
    obtain ⟨hin,h⟩ := h
    have hlnk : inodeIsLnk inode' = inodeIsLnk inode := by rw [h]; rfl
    have hreg : inodeIsReg inode' = inodeIsReg inode := by rw [h]; rfl
    have hfile : getFileBlockBitmap g bm inode' = getFileBlockBitmap g bm inode := by rw [h]; rfl
    have hblocks : inode'.iBlock = inode.iBlock := by rw [h]
    rw [hlnk,hreg,hfile,hblocks]
    split
    · exact .pure rfl
    · rename_i hl
      split
      · rename_i hr
        exact getFileBlockBitmap_same hagree (fun b hb => hptr b ⟨x,inode,hx,hin,by simpa using hl,hr,hb⟩) bm
      · rename_i hr
        have hdirTaken : takenForDir inode = true := by simp [takenForDir,hl,hr]
        refine forBlocks_alike_at (fun i b hb c c' hc => ?_) rfl
        subst hc
        refine (inBounds_same _).bind_same fun c => ?_
        have hvisit : VisitedBlock g img takenForDir (fun _ => true) b :=
          ⟨x,inode,hx,hin,hdirTaken,List.mem_of_getElem? hb⟩
        refine (block_value hagree (hdir b hvisit)).bind fun blk blk' hblk => ?_
        obtain ⟨hblk,rfl⟩ := hblk
        refine scanEntries_alike_at (fun count e he o c c' hc => ?_) rfl
        subst hc
        rw [Nat.zero_add,Nat.zero_add]
        split
        · rename_i hplace
          exact ih (.entry hx hin hdirTaken hb hblk he hplace rfl) _
        · exact .pure rfl

end Mapping

/-- The blocks of the block bitmaps of the groups. -/
def Globals.BitmapBlock (g : Globals) (b : ℕ) : Prop :=
  ∃ a < g.getBlockGroupNum, ∃ gd, g.groupDesc a = some gd ∧
    ∃ i < g.getGroupBlockBitmapBlockNum, b = u32 (gd.bgBlockBitmap+i)

section Bitmaps

variable {g : Globals} {P : ℕ → Prop}

theorem checkBit_differ (bitmap : Buf) (found_error : Bool) (block_id : ℕ) (should_be alloc_bit : Byte) :
    Alike (Differ P) Eq (checkBit bitmap found_error block_id should_be alloc_bit)
      (checkBit bitmap found_error block_id should_be alloc_bit) := by
  unfold checkBit
  split
  · exact (print_differ _).bind_same fun _ => (inBounds_same _).bind_same fun _ => .pure rfl
  · exact .pure rfl

theorem checkGroup_differ (true_bitmap : Buf) (turns block_id : ℕ) (s : Buf × Bool) :
    Alike (Differ P) Eq (checkGroup g true_bitmap turns block_id s)
      (checkGroup g true_bitmap turns block_id s) := by
  induction turns generalizing block_id s with
  | zero => exact .pure rfl
  | succ turns ih =>
    rw [checkGroup]
    refine (inBounds_same _).bind_same fun _ => (inBounds_same _).bind_same fun _ =>
      (checkBit_differ _ _ _ _ _).bind_same fun s => ?_
    split
    · exact .pure rfl
    · exact ih _ _

theorem checkGroups_differ (true_bitmap : Buf) (groups block_id : ℕ) (s : Buf × Bool) :
    Alike (Differ P) Eq (checkGroups g true_bitmap groups block_id s)
      (checkGroups g true_bitmap groups block_id s) := by
  induction groups generalizing block_id s with
  | zero => exact .pure rfl
  | succ groups ih => exact (checkGroup_differ _ _ _ _).bind_same fun _ => ih _ _

theorem checkInodeTables_differ (s : Buf × Bool) :
    Alike (Differ P) Eq (checkInodeTables g s) (checkInodeTables g s) :=
  Alike.foldlM _ (fun _ _ s s' hs => by
    subst hs
    exact (inBounds_same _).bind_same fun _ => Alike.foldlM _ (fun _ _ s s' hs => by
      subst hs
      exact (inBounds_same _).bind_same fun _ => checkBit_differ _ _ _ _ _) rfl) rfl

theorem getBlockBitmapInPartition_differ (hP : ∀ b, g.BitmapBlock b → ∀ k, g.InArea b k → ¬ P k) :
    Alike (Differ P) Eq g.getBlockBitmapInPartition g.getBlockBitmapInPartition :=
  Alike.foldlM _ (fun a ha s s' hs => by
    subst hs
    refine Alike.bind_same ?_ fun _ => inBounds_same _
    exact readGroupDesc_alike fun gd hgd => readBlocks_same (fun _ _ h => h) fun i hi =>
      hP _ ⟨a,List.mem_range.mp ha,gd,hgd,i,hi,rfl⟩) rfl

theorem writeBlockBitmapInPartition_differ (bitmap : Buf) :
    Alike (Differ P) Eq (g.writeBlockBitmapInPartition bitmap) (g.writeBlockBitmapInPartition bitmap) := by
  unfold Globals.writeBlockBitmapInPartition
  refine Alike.foldlM _ (fun a _ _ _ _ => ?_) rfl
  unfold Globals.writeBlockBitmapInGroup
  refine Alike.bind_same (inBounds_same _) fun gd => ?_
  refine Alike.foldlM _ (fun i _ _ _ _ => ?_) rfl
  exact write_same _ _ _

theorem checks_differ (bitmap true_bitmap : Buf) :
    Alike (Differ P) Eq
      (checkGroups g true_bitmap g.getBlockGroupNum 1 (bitmap,false) >>= fun s =>
        checkInodeTables g s >>= fun s => if s.2 then g.writeBlockBitmapInPartition s.1 else pure ())
      (checkGroups g true_bitmap g.getBlockGroupNum 1 (bitmap,false) >>= fun s =>
        checkInodeTables g s >>= fun s => if s.2 then g.writeBlockBitmapInPartition s.1 else pure ()) := by
  refine (checkGroups_differ _ _ _ _).bind_same fun s => (checkInodeTables_differ s).bind_same fun s => ?_
  split
  · exact writeBlockBitmapInPartition_differ s.1
  · exact .pure rfl

theorem pass4_differ_of_walk {d d' e : Device} {fuel : ℕ} {u : Unit} (hd : Differ P d d')
    (hbit : ∀ b, g.BitmapBlock b → ∀ k, g.InArea b k → ¬ P k)
    (hwalk : Alike (Images d.image d'.image) Eq
      (getTrueBlockBitmap g fuel (calloc (g.superBlock.sBlocksCount+1)) rootInodeNum)
      (getTrueBlockBitmap g fuel (calloc (g.superBlock.sBlocksCount+1)) rootInodeNum))
    (h : (pass4 g fuel).run d = .ok u e) :
    ∃ e', (pass4 g fuel).run d' = .ok () e' ∧ Differ P e e' := by
  unfold pass4 at h ⊢
  obtain ⟨hper,h⟩ := checkDivisor_inv h
  rw [checkDivisor_pos hper,pure_bind]
  obtain ⟨bitmap,t,hload,h₁⟩ := bind_ok_inv h
  obtain rfl := (getBlockBitmapInPartition_readOnly g).state_eq hload
  obtain ⟨marks,t₁,hmarks,h₂⟩ := bind_ok_inv h₁
  rcases getBlockBitmapInPartition_differ hbit t d' hd with ⟨a,b,s,s',hr,hr',rfl,_⟩ | ⟨_,_,_,hr,_⟩
  swap
  · rw [hload] at hr
    cases hr
  rw [hload] at hr
  cases hr
  obtain rfl := (getBlockBitmapInPartition_readOnly g).state_eq hr'
  rw [bind_ok hr']
  rcases hwalk t s' ⟨rfl,rfl⟩ with ⟨a,b,s,s₁,hr,hr₁,rfl,him⟩ | ⟨_,_,_,hr,_⟩
  swap
  · rw [hmarks] at hr
    cases hr
  rw [hmarks] at hr
  cases hr
  rw [bind_ok hr₁]
  rcases checks_differ bitmap marks t₁ s₁ (images_differ hd t₁ s₁ him) with ⟨_,_,t₂,s₂,hl,hl',_,hdiffer⟩ | ⟨_,_,_,hl,_⟩
  · rw [h₂] at hl
    cases hl
    exact ⟨s₂,hl',hdiffer⟩
  · rw [h₂] at hl
    cases hl

theorem pass4_differ {d d' e : Device} {fuel : ℕ} {u : Unit} (hd : Differ P d d')
    (hlink : ∀ k, P k → LinkByte k) (hdvd : sectorSizeBytes ∣ g.blockSize)
    (hbit : ∀ b, g.BitmapBlock b → ∀ k, g.InArea b k → ¬ P k)
    (hdir : ∀ b, VisitedBlock g d.image takenForDir (fun _ => true) b → ∀ k, g.InArea b k → ¬ P k)
    (hptr : ∀ b, MappedPointer g d.image b → ∀ k, g.InArea b k → ¬ P k)
    (h : (pass4 g fuel).run d = .ok u e) :
    ∃ e', (pass4 g fuel).run d' = .ok () e' ∧ Differ P e e' :=
  pass4_differ_of_walk hd hbit (getTrueBlockBitmap_same hd
    (fun _ _ => readInode_links (images_differ hd) hlink hdvd) hdir hptr fuel .root _) h

/-- The bytes of the block bitmaps. -/
def Globals.BitmapPlace (g : Globals) (k : ℕ) : Prop := ∃ b, g.BitmapBlock b ∧ g.InArea b k

theorem getBlockBitmapInPartition_inv {d d' : Device} {bitmap : Buf}
    (h : g.getBlockBitmapInPartition.run d = .ok bitmap d') {a : ℕ} (ha : a < g.getBlockGroupNum) :
    ∃ gd t d₁, g.groupDesc a = some gd ∧ (g.readBlocks gd.bgBlockBitmap g.getGroupBlockBitmapBlockNum
      (g.getGroupBlockBitmapBlockNum*g.blockSize)).run d = .ok t d₁ := by
  obtain ⟨b₁,b₂,hstep⟩ := ReadOnly.foldlM_mem (fun _ _ => ((readGroupDesc_readOnly g _).bind fun _ =>
    readBlocks_readOnly g _ _ _).bind fun _ => inBounds_readOnly _) h (List.mem_range.mpr ha)
  obtain ⟨blk,hread,_⟩ := ((readGroupDesc_readOnly g _).bind fun _ => readBlocks_readOnly g _ _ _).bind_inv hstep
  obtain ⟨gd,hgd,hblocks⟩ := (readGroupDesc_readOnly g _).bind_inv hread
  exact ⟨gd,blk,_,inBounds_ok hgd,hblocks⟩

theorem getBlockBitmapInPartition_ok (hdvd : sectorSizeBytes ∣ g.blockSize) {d d' : Device} {bitmap : Buf}
    (h : g.getBlockBitmapInPartition.run d = .ok bitmap d') {b : ℕ} (hb : g.BitmapBlock b) :
    g.areaOffset b+g.blockSize ≤ d.image.size := by
  obtain ⟨a,ha,gd,hgd,i,hi,rfl⟩ := hb
  obtain ⟨gd',blk,d₁,hgd',hblocks⟩ := getBlockBitmapInPartition_inv h ha
  rw [hgd] at hgd'
  cases hgd'
  exact ((readBlocks_ok hdvd hblocks).2 i hi).2.1

theorem writeBlock_frame (hdvd : sectorSizeBytes ∣ g.blockSize) {img : Buf} {b : ℕ} (hb : g.BitmapBlock b)
    (hin : g.areaOffset b+g.blockSize ≤ img.size) (src : Buf) (pos : ℕ) :
    Triple (fun (d : Device) => AgreeOff g.BitmapPlace img d.image) (g.write b src pos)
      (fun _ d => AgreeOff g.BitmapPlace img d.image) fun _ => True := by
  intro d hd
  have hbs : sectorSizeBytes*(g.blockSize/sectorSizeBytes) = g.blockSize := Nat.mul_div_cancel' hdvd
  cases hrun : (g.write b src pos).run d with
  | error e d' => trivial
  | ok a d' =>
    unfold Globals.write writeBlock at hrun
    obtain ⟨_,d₁,hp,h₁⟩ := bind_ok_inv hrun
    cases hp
    obtain ⟨bytes,hwin,h₂⟩ := (inBounds_readOnly _).bind_inv h₁
    unfold writeSectors at h₂
    obtain ⟨_,d₂,hp,h₃⟩ := bind_ok_inv h₂
    cases hp
    cases h₃
    replace hwin := inBounds_ok hwin
    have hsize : bytes.size = g.blockSize := by
      unfold Buf.window at hwin
      split at hwin
      · cases hwin
        rw [slice_size,hbs]
      · cases hwin
    refine hd.trans (AgreeOff.patch_self ?_ fun j hj hno => absurd ⟨b,hb,?_⟩ hno)
    · rw [hsize,← hd.size_eq]
      exact hin
    · rw [hsize] at hj
      unfold Globals.InArea Globals.areaOffset
      rw [hbs]
      omega

theorem writeBlockBitmapInPartition_frame (hdvd : sectorSizeBytes ∣ g.blockSize) {img : Buf}
    (hin : ∀ b, g.BitmapBlock b → g.areaOffset b+g.blockSize ≤ img.size) (bitmap : Buf) :
    Triple (fun (d : Device) => AgreeOff g.BitmapPlace img d.image) (g.writeBlockBitmapInPartition bitmap)
      (fun _ d => AgreeOff g.BitmapPlace img d.image) fun _ => True := by
  unfold Globals.writeBlockBitmapInPartition
  dsimp only
  refine Triple.foldlM (I := fun _ (d : Device) => AgreeOff g.BitmapPlace img d.image) _ (fun _ a ha => ?_) ()
  unfold Globals.writeBlockBitmapInGroup
  refine Triple.bind (Q := fun gd d => g.groupDesc a = some gd ∧ AgreeOff g.BitmapPlace img d.image)
    (inBounds_triple (fun gd hgd _ hs => ⟨hgd,hs⟩) fun _ _ => trivial) fun gd => .of_pre fun hgd => ?_
  refine Triple.foldlM (I := fun _ (d : Device) => AgreeOff g.BitmapPlace img d.image) _ (fun _ i hi => ?_) ()
  have hb : g.BitmapBlock (u32 (gd.bgBlockBitmap+i)) :=
    ⟨a,List.mem_range.mp ha,gd,hgd,i,List.mem_range.mp hi,rfl⟩
  exact writeBlock_frame hdvd hb (hin _ hb) _ _

theorem pass4_frame (hdvd : sectorSizeBytes ∣ g.blockSize) {fuel : ℕ} {d d' : Device} {u : Unit}
    (h : (pass4 g fuel).run d = .ok u d') : AgreeOff g.BitmapPlace d.image d'.image := by
  unfold pass4 at h
  replace h := (checkDivisor_inv h).2
  obtain ⟨bitmap,t,hload,h₁⟩ := bind_ok_inv h
  obtain rfl := (getBlockBitmapInPartition_readOnly g).state_eq hload
  have hprint : ∀ e, Triple (fun (s : Device) => AgreeOff g.BitmapPlace t.image s.image) (print e)
      (fun _ s => AgreeOff g.BitmapPlace t.image s.image) fun s => AgreeOff g.BitmapPlace t.image s.image :=
    fun e s hs => hs
  have hrest : Triple (fun (s : Device) => AgreeOff g.BitmapPlace t.image s.image)
      (getTrueBlockBitmap g fuel (calloc (g.superBlock.sBlocksCount+1)) rootInodeNum >>= fun true_bitmap =>
        checkGroups g true_bitmap g.getBlockGroupNum 1 (bitmap,false) >>= fun s =>
          checkInodeTables g s >>= fun s => if s.2 then g.writeBlockBitmapInPartition s.1 else pure ())
      (fun _ s => AgreeOff g.BitmapPlace t.image s.image) (fun _ => True) := by
    refine (getTrueBlockBitmap_keeps hprint _ _ _).unless_stopped.bind fun m =>
      (checkGroups_keeps hprint _ _ _ _).unless_stopped.bind fun s =>
        (checkInodeTables_keeps hprint s).unless_stopped.bind fun s => ?_
    refine .ite (fun _ => ?_) fun _ => .pure fun _ h => h
    exact writeBlockBitmapInPartition_frame hdvd (fun b hb => getBlockBitmapInPartition_ok hdvd hload hb) s.1
  have hend := hrest t (.refl _ _)
  rw [h₁] at hend
  exact hend

end Bitmaps

namespace Globals

variable (g : Globals)

/-- The blocks of the inode tables of the groups. -/
def InodeTableBlock (b : ℕ) : Prop := ∃ x, 1 ≤ x ∧ x ≤ g.superBlock.sInodesCount ∧ g.TableBlock x b

/-- The directory blocks and the pointer blocks that the walks come to from the root. -/
def WalkedBlock (img : Buf) (b : ℕ) : Prop :=
  VisitedBlock g img (fun _ => true) dirIsDir b ∨ VisitedBlock g img takenForDir (fun _ => true) b ∨
    MappedPointer g img b

/-- The blocks stand in different bytes of the image. -/
def Apart (b c : ℕ) : Prop := ∀ k, g.InArea b k → ¬ g.InArea c k

end Globals

theorem Geometry.apart {g : Globals} (hg : Geometry g) {b c : ℕ} (hb : b ≤ g.superBlock.sBlocksCount)
    (hc : c ≤ g.superBlock.sBlocksCount) (h : b ≠ c) : g.Apart b c := by
  intro k hk hk'
  have hdisj := hg.sizes.blocks_disjoint h
  have harea : ∀ a ≤ g.superBlock.sBlocksCount, g.areaOffset a = g.blockOffset a :=
    fun a ha => hg.sizes.areaOffset_eq ha
  rw [Globals.InArea,harea _ hb,hg.sizes.sector_mul] at hk
  rw [Globals.InArea,harea _ hc,hg.sizes.sector_mul] at hk'
  omega

/-- The inode tables, the block bitmaps and the blocks the walks come to are three sets of blocks that
stand apart; the root is one of the inodes. -/
structure Separate (g : Globals) (img : Buf) : Prop where
  root_le : rootInodeNum ≤ g.superBlock.sInodesCount
  table_bitmap : ∀ b c, g.InodeTableBlock b → g.BitmapBlock c → g.Apart b c
  table_walked : ∀ b c, g.InodeTableBlock b → g.WalkedBlock img c → g.Apart b c
  bitmap_walked : ∀ b c, g.BitmapBlock b → g.WalkedBlock img c → g.Apart b c

section Order

variable {g : Globals} {img : Buf}

theorem Separate.linkPlace (h : Separate g img) {b k : ℕ} (hb : g.BitmapBlock b ∨ g.WalkedBlock img b)
    (hk : g.InArea b k) : ¬ g.LinkPlace k := by
  rintro ⟨_,x,c,h1,hle,hc,hck⟩
  rcases hb with hb | hb
  · exact h.table_bitmap c b ⟨x,h1,hle,hc⟩ hb k hck hk
  · exact h.table_walked c b ⟨x,h1,hle,hc⟩ hb k hck hk

theorem Separate.bitmapPlace (h : Separate g img) {b k : ℕ} (hb : g.InodeTableBlock b ∨ g.WalkedBlock img b)
    (hk : g.InArea b k) : ¬ g.BitmapPlace k := by
  rintro ⟨c,hc,hck⟩
  rcases hb with hb | hb
  · exact h.table_bitmap b c hb hc k hk hck
  · exact h.bitmap_walked c b hc hb k hck hk

/-- Both passes end on an image on which each of them ends, in either order, and with the same image. -/
theorem pass3_pass4_comm (hdvd : sectorSizeBytes ∣ g.blockSize) {d d₃ d₄ : Device}
    (hs : Separate g d.image) {fuel fuel' : ℕ} {u v : Unit} (h₃ : (pass3 g fuel).run d = .ok u d₃)
    (h₄ : (pass4 g fuel').run d = .ok v d₄) : ∃ d₃₄ d₄₃, (pass4 g fuel').run d₃ = .ok () d₃₄ ∧
      (pass3 g fuel).run d₄ = .ok () d₄₃ ∧ d₃₄.image = d₄₃.image := by
  have hd₃ : Differ g.LinkPlace d d₃ := pass3_frame hdvd h₃
  have hd₄ : Differ g.BitmapPlace d d₄ := pass4_frame hdvd h₄
  obtain ⟨d₃₄,h₃₄,hd₃₄⟩ := pass4_differ hd₃ (fun _ hk => hk.1) hdvd
    (fun b hb k => hs.linkPlace (Or.inl hb)) (fun b hb k => hs.linkPlace (Or.inr (Or.inr (Or.inl hb))))
    (fun b hb k => hs.linkPlace (Or.inr (Or.inr (Or.inr hb)))) h₄
  obtain ⟨d₄₃,h₄₃,hd₄₃⟩ := pass3_differ hd₄ hs.root_le
    (fun x h1 hle b hb k => hs.bitmapPlace (Or.inl ⟨x,h1,hle,hb⟩))
    (fun b hb k => hs.bitmapPlace (Or.inr (Or.inl hb))) h₃
  refine ⟨d₃₄,d₄₃,h₃₄,h₄₃,?_⟩
  have hf₄ : AgreeOff g.BitmapPlace d₃.image d₃₄.image := pass4_frame hdvd h₃₄
  have hf₃ : AgreeOff g.LinkPlace d₄.image d₄₃.image := pass3_frame hdvd h₄₃
  refine ext_byte (hf₄.size_eq.symm.trans hd₄₃.size_eq) fun k _ => ?_
  by_cases hk : g.BitmapPlace k
  · obtain ⟨b,hb,hbk⟩ := hk
    have hno : ¬ g.LinkPlace k := hs.linkPlace (Or.inl hb) hbk
    exact (hd₃₄.byte_eq k hno).symm.trans (hf₃.byte_eq k hno)
  · exact (hf₄.byte_eq k hk).symm.trans (hd₄₃.byte_eq k hk)

theorem loadGlobals_sectors {e : PartitionEntry} {d d' : Device} (h : (loadGlobals e).run d = .ok g d') :
    sectorSizeBytes ∣ g.blockSize := by
  unfold loadGlobals at h
  obtain ⟨⟨sb,bs⟩,d₁,hsuper,h₁⟩ := bind_ok_inv h
  obtain ⟨desc,d₂,_,h₂⟩ := bind_ok_inv h₁
  cases h₂
  unfold readSuperBlock at hsuper
  obtain ⟨contents,d₃,_,h₃⟩ := bind_ok_inv hsuper
  obtain ⟨sb',d₄,_,h₄⟩ := bind_ok_inv h₃
  cases hsize : getBlockSize sb'.sLogBlockSize with
  | none =>
    rw [hsize] at h₄
    cases h₄
  | some n =>
    rw [hsize] at h₄
    cases h₄
    unfold getBlockSize at hsize
    split at hsize
    · cases hsize
      exact Dvd.dvd.mul_right (by decide) _
    · cases hsize

end Order

theorem tree_tables {b : ℕ} (hb : (exampleGlobals 16).InodeTableBlock b) : b = 5 ∨ b = 6 := by
  obtain ⟨x,h1,hle,gd,hgd,i,hi,rfl⟩ := hb
  have hgroup : (exampleGlobals 16).getInodeGroupOffset x = 0 := by
    have hle' : x ≤ 16 := hle
    unfold Globals.getInodeGroupOffset
    rw [pred32_eq h1 (by omega)]
    exact Nat.div_eq_of_lt (by show x-1 < 16; omega)
  rw [hgroup] at hgd
  have htable : ((exampleGlobals 16).groupDesc 0).map GroupDesc.bgInodeTable = some 5 := by decide +kernel
  rw [hgd] at htable
  rw [Option.some.inj htable]
  have hi' : i < 2 := hi
  rcases (show i = 0 ∨ i = 1 by omega) with rfl | rfl
  · exact Or.inl rfl
  · exact Or.inr rfl

theorem tree_bitmap {b : ℕ} (hb : (exampleGlobals 16).BitmapBlock b) : b = 3 := by
  obtain ⟨a,ha,gd,hgd,i,hi,rfl⟩ := hb
  obtain rfl : a = 0 := by
    have ha' : a < 1 := ha
    omega
  obtain rfl : i = 0 := by
    have hi' : i < 1 := hi
    omega
  have hbitmap : ((exampleGlobals 16).groupDesc 0).map GroupDesc.bgBlockBitmap = some 3 := by decide +kernel
  rw [hgd] at hbitmap
  rw [Option.some.inj hbitmap]
  rfl

theorem followed_mem {g : Globals} {img : Buf} {x i b c count : ℕ} {inode : Inode} {blk : Buf} {e : DirEntry}
    (ns : List ℕ) (hone : (g.inodeIn img x).map (fun inode => inode.iBlock.takeWhile (· ≠ 0)) = some [c])
    (hns : (g.blockIn img c).map (fun blk =>
      (metFrom g.blockSize blk g.blockSize 0).1.map DirEntry.inode) = some ns)
    (hin : g.inodeIn img x = some inode) (hb : (inode.iBlock.takeWhile (· ≠ 0))[i]? = some b)
    (hblk : g.blockIn img b = some blk)
    (he : (metFrom g.blockSize blk g.blockSize 0).1[count]? = some e) (hplace : i ≠ 0 ∨ 2 ≤ count) :
    b = c ∧ e.inode ∈ ns.drop 2 := by
  rw [hin] at hone
  have hblocks : inode.iBlock.takeWhile (· ≠ 0) = [c] := Option.some.inj hone
  rw [hblocks] at hb
  obtain ⟨hi,rfl⟩ : i = 0 ∧ c = b := by
    cases i with
    | zero => exact ⟨rfl,Option.some.inj hb⟩
    | succ i => cases hb
  rw [hblk] at hns
  have hmap : ns[count]? = some e.inode := by
    rw [← Option.some.inj hns,List.getElem?_map,he]
    rfl
  refine ⟨rfl,List.mem_of_getElem? (i := count-2) ?_⟩
  rw [List.getElem?_drop,Nat.add_sub_cancel' (by omega)]
  exact hmap

theorem tree_one : ((exampleGlobals 16).inodeIn treeImage 2).map
      (fun inode => inode.iBlock.takeWhile (· ≠ 0)) = some [7] ∧
    ((exampleGlobals 16).inodeIn treeImage 11).map (fun inode => inode.iBlock.takeWhile (· ≠ 0)) = some [8] := by
  decide +kernel

theorem tree_visited {enters : Inode → Bool} {goes : DirEntry → Bool} {y : ℕ}
    (h : Visited (exampleGlobals 16) treeImage enters goes y) : y = 2 ∨ y = 11 := by
  induction h with
  | root => exact Or.inl rfl
  | entry _ hin _ hb hblk he hplace _ ih =>
    rcases ih with rfl | rfl
    · have hmem := (followed_mem [2,2,11] tree_one.1 (by decide +kernel) hin hb hblk he hplace).2
      exact Or.inr (List.mem_singleton.mp hmem)
    · have hmem := (followed_mem [11,2] tree_one.2 (by decide +kernel) hin hb hblk he hplace).2
      cases hmem

theorem tree_walked {b : ℕ} (hb : (exampleGlobals 16).WalkedBlock treeImage b) : b = 7 ∨ b = 8 := by
  have hdir : ∀ {enters goes}, VisitedBlock (exampleGlobals 16) treeImage enters goes b → b = 7 ∨ b = 8 := by
    rintro enters goes ⟨x,inode,hx,hin,_,hmem⟩
    have hone := tree_one
    rcases tree_visited hx with rfl | rfl
    · rw [hin] at hone
      have hblocks : inode.iBlock.takeWhile (· ≠ 0) = [7] := Option.some.inj hone.1
      rw [hblocks] at hmem
      exact Or.inl (List.mem_singleton.mp hmem)
    · rw [hin] at hone
      have hblocks : inode.iBlock.takeWhile (· ≠ 0) = [8] := Option.some.inj hone.2
      rw [hblocks] at hmem
      exact Or.inr (List.mem_singleton.mp hmem)
  rcases hb with hb | hb | ⟨x,inode,hx,hin,_,hreg,_⟩
  · exact hdir hb
  · exact hdir hb
  · have hno : ((exampleGlobals 16).inodeIn treeImage 2).map inodeIsReg = some false ∧
      ((exampleGlobals 16).inodeIn treeImage 11).map inodeIsReg = some false := by decide +kernel
    rcases tree_visited hx with rfl | rfl
    · rw [hin] at hno
      rw [Option.some.inj hno.1] at hreg
      cases hreg
    · rw [hin] at hno
      rw [Option.some.inj hno.2] at hreg
      cases hreg

theorem tree_separate : Separate (exampleGlobals 16) treeImage := by
  have hg : Geometry (exampleGlobals 16) := by decide
  have hapart : ∀ b c, b < 16 → c < 16 → b ≠ c → (exampleGlobals 16).Apart b c :=
    fun b c hb hc => hg.apart hb.le hc.le
  refine ⟨by decide,fun b c hb hc => ?_,fun b c hb hc => ?_,fun b c hb hc => ?_⟩
  · have h₁ := tree_tables hb
    have h₂ := tree_bitmap hc
    exact hapart b c (by omega) (by omega) (by omega)
  · have h₁ := tree_tables hb
    have h₂ := tree_walked hc
    exact hapart b c (by omega) (by omega) (by omega)
  · have h₁ := tree_bitmap hb
    have h₂ := tree_walked hc
    exact hapart b c (by omega) (by omega) (by omega)

/-- In `treeImage` a link count and bits of the bitmap are wrong. -/
theorem pass3_pass4_comm_tree : ∃ d₃ d₄ d₃₄ d₄₃,
    (pass3 (exampleGlobals 16) 3).run ⟨treeImage,[]⟩ = .ok () d₃ ∧
    (pass4 (exampleGlobals 16) 3).run ⟨treeImage,[]⟩ = .ok () d₄ ∧
    (pass4 (exampleGlobals 16) 3).run d₃ = .ok () d₃₄ ∧ (pass3 (exampleGlobals 16) 3).run d₄ = .ok () d₄₃ ∧
    d₃₄.image = d₄₃.image ∧ d₃.out ≠ [] ∧ d₄.out ≠ [] := by
  obtain ⟨u,d₃,h₃,hout₃⟩ := exists_of_endsIn (show endsIn (pass3 (exampleGlobals 16) 3) ⟨treeImage,[]⟩
    (fun _ d => decide (d.out ≠ [])) = true by decide +kernel)
  obtain ⟨v,d₄,h₄,hout₄⟩ := exists_of_endsIn (show endsIn (pass4 (exampleGlobals 16) 3) ⟨treeImage,[]⟩
    (fun _ d => decide (d.out ≠ [])) = true by decide +kernel)
  obtain ⟨d₃₄,d₄₃,h₃₄,h₄₃,heq⟩ := pass3_pass4_comm (by decide) tree_separate h₃ h₄
  exact ⟨d₃,d₄,d₃₄,d₄₃,h₃,h₄,h₃₄,h₄₃,heq,of_decide_eq_true hout₃,of_decide_eq_true hout₄⟩

end MyFsck
