import MyFsck.PartitionLoop
import MyFsck.BlockBitmap
import MyFsck.Outputs

/-! What a run puts on standard output, whichever way it ends: every write follows the report of the
error it corrects, every report but those of the bitmap is followed by the write at once, and every
byte that is changed lies in sectors that are announced. -/
namespace MyFsck

open ByteBuffer ErrorState Outputs Computability

deriving instance Inhabited for Inode, GroupDesc, DirEntry

instance : Inhabited Buf := ⟨Buf.zero 0⟩

section Reports

variable (g : Globals)

/-- The report of a wrong dot entry, and the write of its block. -/
def dotReport : Language Event :=
  {w | ∃ should_be name is b, is ≠ should_be ∧ w = .dirEntryIncorrect should_be name is :: writeEvents g b}

/-- The report of an unreferenced inode. There follows the report that `lost+found` is missing, or the
write of one block or of two, whichever they are. -/
def adoptReport : Language Event :=
  {w | ∃ i, w = [.unreferencedInode i,.cannotFindLostFound] ∨
    ∃ (placed : List ℕ) (first : ℕ), placed.length ≤ 1 ∧
      w = .unreferencedInode i :: (placed.flatMap (writeEvents g) ++ writeEvents g first)}

/-- The block of the inode table that the link count of inode `i` is written to. -/
def Globals.linkHome (i : ℕ) : ℕ :=
  u32 (((g.groupDesc (g.getInodeGroupOffset i)).map GroupDesc.bgInodeTable).getD 0 +
    u32 (g.getInodeOffsetInGroup i*inodeSize)/g.blockSize)

/-- The report of a wrong link count, and the write of its block. -/
def linkReport : Language Event :=
  {w | ∃ (i is : ℕ) (c : Byte), 1 ≤ i ∧ i ≤ g.superBlock.sInodesCount ∧ (is:ℤ) ≠ c.toInt ∧
    w = .refCount i is (c.signExtend 32).toNat :: writeEvents g (g.linkHome i)}

/-- The writes of the block bitmaps of all groups. -/
def bitmapWrites : List Event :=
  (List.range g.getBlockGroupNum).flatMap fun a =>
    (List.range g.getGroupBlockBitmapBlockNum).flatMap fun i => writeEvents g (u32 (g.bitmapHome a+i))

/-- The files that are too large, the differences, and the writes of all bitmaps if there are any. -/
def bitmapReport : Language Event :=
  {w | ∃ (n : ℕ) (bs : List ℕ), w = List.replicate n .tooLarge ++
    (bs.map .bitmapDifference ++ if bs = [] then [] else bitmapWrites g)}

/-- The four passes. -/
def passesReport : Language Event :=
  (dotReport g)∗*((adoptReport g)∗*((linkReport g)∗*bitmapReport g))

end Reports

section Steps

variable {g : Globals} {α σ : Type} {L : α → Language Event} {K : Language Event}

theorem print_prints (e : Event) : Prints Device.out (print e) fun _ => {[e]} where
  inhabited := ⟨(),[e],rfl⟩
  run _ := ⟨[e],rfl,rfl⟩

theorem write_prints (b : ℕ) (src : Buf) (pos : ℕ) :
    Prints Device.out (g.write b src pos) fun _ => {writeEvents g b} where
  inhabited := ⟨(),_,rfl⟩
  run d := by
    unfold Globals.write writeBlock writeSectors
    cases hw : src.window pos (sectorSizeBytes*(g.blockSize/sectorSizeBytes)) with
    | none =>
      simp only [EStateM.run_bind,print_run,hw,inBounds_none]
      exact ⟨(),[.writeBlock b],⟨_,rfl⟩,rfl⟩
    | some bytes =>
      simp only [EStateM.run_bind,print_run,hw,inBounds_some,EStateM.run_modify]
      exact ⟨_,rfl,List.append_assoc d.out [.writeBlock b] _⟩

theorem print_bind_prints {e : Event} {f : Unit → Fsck α} (hf : Prints Device.out (f ()) L)
    {N : α → Language Event} (hN : ∀ a, ∀ w ∈ L a, e::w ∈ N a) :
    Prints Device.out (print e >>= f) N := by
  refine (print_prints e).bind (fun _ => hf) fun _ a w hw => ?_
  obtain ⟨u,rfl,v,hv,rfl⟩ := Language.mem_mul.mp hw
  exact hN a v hv

theorem readGroupDesc_prints {group : ℕ} {f : GroupDesc → Fsck α} (hne : ∃ a w, w ∈ L a)
    (hf : ∀ gd, g.groupDesc group = some gd → Prints Device.out (f gd) L) :
    Prints Device.out (readGroupDesc g group >>= f) L := by
  unfold readGroupDesc
  unfold Globals.groupDesc at hf
  cases hgd : decodeGroupDesc g.groupDescBlock (u32 (group*groupDescSize)) with
  | some gd => exact hf gd hgd
  | none =>
    obtain ⟨a,w,hw⟩ := hne
    exact ⟨⟨a,w,hw⟩,fun d => ⟨a,[],⟨w,hw⟩,(List.append_nil _).symm⟩⟩

theorem forBlocks_prints {body : ℕ → ℕ → σ → Fsck σ}
    (h : ∀ i b s, Prints Device.out (body i b s) fun _ => K∗) (i : ℕ) (bs : List ℕ) (s : σ) :
    Prints Device.out (forBlocks body i bs s) fun _ => K∗ := by
  induction bs generalizing i s with
  | nil => exact .pure (Language.nil_mem_kstar K)
  | cons b bs ih =>
    rw [forBlocks]
    refine .ite (fun _ => .pure (Language.nil_mem_kstar K)) fun _ => ?_
    exact (h i b s).bind (fun s' => ih (i+1) s') fun _ _ => (kstar_mul_kstar K).le

theorem scanEntries_prints [Nonempty σ] {block_size : ℕ} {blk : σ → Buf}
    {body : ℕ → ℕ → DirEntry → σ → Fsck σ}
    (h : ∀ count off e s, Prints Device.out (body count off e s) fun _ => K∗) (turns off count : ℕ)
    (s : σ) : Prints Device.out (scanEntries block_size blk body turns off count s) fun _ => K∗ := by
  have hnil := fun _ : σ => Language.nil_mem_kstar K
  induction turns generalizing off count s with
  | zero =>
    rw [scanEntries]
    exact .ite (fun _ => .throw hnil) fun _ => .pure (hnil s)
  | succ turns ih =>
    rw [scanEntries]
    refine .ite (fun _ => ?_) fun _ => .pure (hnil s)
    refine .bind_silent (inBounds_readOnly _) fun r => ?_
    cases r with
    | none => exact .pure (hnil s)
    | some e =>
      exact (h count off e s).bind (fun s' => ih (off+e.recLen) (count+1) s')
        fun _ _ => (kstar_mul_kstar K).le

end Steps

section Passes

variable {g : Globals}

theorem mem_kstar_self {K : Language Event} {w : List Event} (h : w ∈ K) : w ∈ K∗ :=
  (le_kstar : K ≤ K∗) h

theorem pass1Corrector_prints (dir_block : Buf) (block_id offset_in_block v : ℕ) :
    Prints Device.out (pass1Corrector g dir_block block_id offset_in_block v)
      fun _ => {writeEvents g block_id} := by
  refine .bind_silent (inBounds_readOnly _) fun blk => (write_prints block_id blk 0).bind
    (K := fun _ _ => 1) (fun _ => .pure rfl) fun _ _ => (mul_one _).le

theorem pass1Entry_prints {visit : ℕ → ℕ → Fsck Unit}
    (hv : ∀ p x, Prints Device.out (visit p x) fun _ => (dotReport g)∗) (block_id p x count off : ℕ)
    (e : DirEntry) (b : Buf) :
    Prints Device.out (pass1Entry g visit block_id p x count off e b) fun _ => (dotReport g)∗ := by
  have hsame : Prints Device.out (pure b : Fsck Buf) fun _ => (dotReport g)∗ :=
    .pure (Language.nil_mem_kstar _)
  have hfix : ∀ v, e.inode ≠ v → Prints Device.out
      (print (.dirEntryIncorrect v e.name e.inode) >>= fun _ => pass1Corrector g b block_id off v)
      fun _ => (dotReport g)∗ := by
    intro v hne
    refine print_bind_prints (pass1Corrector_prints b block_id off v) fun _ w hw => mem_kstar_self ?_
    obtain rfl : w = writeEvents g block_id := hw
    exact ⟨v,e.name,e.inode,block_id,hne,rfl⟩
  unfold pass1Entry
  refine .ite (fun _ => .ite (fun _ => .ite (hfix x) fun _ => hsame) fun _ =>
    .ite (fun _ => .ite (hfix p) fun _ => hsame) fun _ => ?_) fun _ => hsame
  exact (hv x e.inode).bind (fun _ => hsame) fun _ _ => (kstar_mul_kstar _).le

theorem pass1_prints (fuel p x : ℕ) :
    Prints Device.out (pass1 g fuel p x) fun _ => (dotReport g)∗ := by
  have hnil := Language.nil_mem_kstar (dotReport g)
  induction fuel generalizing p x with
  | zero => exact .throw fun _ => hnil
  | succ fuel ih =>
    rw [pass1_succ]
    refine .bind_silent (readInode_readOnly g x) fun inode => .ite (fun _ => .pure hnil) fun _ => ?_
    refine .bind_silent (ReadOnly.pure ()) fun _ => forBlocks_prints (fun i b _ => ?_) _ _ _
    refine .bind_silent (block_readOnly g b) fun blk => ?_
    exact (scanEntries_prints (pass1Entry_prints ih b p x) _ _ _ _).bind
      (K := fun _ _ => 1) (fun _ => .pure rfl) fun _ _ => (mul_one _).le

theorem writeNewEntry_prints (entry : DirEntry) (dir_block : Buf) (block_id offset_in_block : ℕ) :
    Prints Device.out (writeNewEntry g entry dir_block block_id offset_in_block)
      fun _ => {writeEvents g block_id} :=
  .bind_silent (inBounds_readOnly _) fun _ => .bind_silent (inBounds_readOnly _) fun _ =>
    .bind_silent (inBounds_readOnly _) fun _ => .bind_silent (inBounds_readOnly _) fun _ =>
      .bind_silent (inBounds_readOnly _) fun _ => write_prints _ _ _

/-- At most one block of `lost+found` is written. -/
def placeReport (g : Globals) : Language Event :=
  {w | ∃ placed : List ℕ, placed.length ≤ 1 ∧ w = placed.flatMap (writeEvents g)}

theorem placeEntry_prints (new_entry : DirEntry) (blocks : List ℕ) (entry : Option DirEntry) :
    Prints Device.out (placeEntry g new_entry blocks entry) fun _ => placeReport g := by
  have hnil : [] ∈ placeReport g := ⟨[],by simp,rfl⟩
  induction blocks generalizing entry with
  | nil => exact .pure hnil
  | cons b blocks ih =>
    rw [placeEntry]
    refine .ite (fun _ => .pure hnil) fun _ => .bind_silent (block_readOnly g b) fun blk => ?_
    refine .bind_silent (findLastEntry_readOnly _ _ _ _ _ _) fun r => ?_
    obtain ⟨off,len,entry'⟩ := r
    dsimp only
    cases entry' with
    | none => exact .throw fun _ => hnil
    | some e =>
      refine .ite (fun _ => .bind_silent (inBounds_readOnly _) fun blk' => ?_) fun _ => ih _
      refine (writeNewEntry_prints _ _ _ _).mono fun _ w hw => ?_
      obtain rfl : w = writeEvents g b := hw
      exact ⟨[b],by simp,by simp⟩

theorem addToLostFound_prints (i : ℕ) : Prints Device.out (addToLostFound g i)
    fun _ => {w | Event.unreferencedInode i::w ∈ adoptReport g} := by
  refine .bind_silent (readInode_readOnly g _) fun root =>
    .bind_silent (searchDirEntry_readOnly g _ _) fun found => ?_
  cases found with
  | none =>
    refine print_bind_prints (f := fun _ => pure (some (-1))) (L := fun _ => 1) (.pure rfl) fun _ w hw => ?_
    obtain rfl : w = [] := hw
    exact ⟨i,Or.inl rfl⟩
  | some e =>
    refine .bind_silent (readInode_readOnly g _) fun lost =>
      .bind_silent (createNewEntry_readOnly g _) fun new => ?_
    refine (placeEntry_prints new _ none).bind (K := fun _ _ => {w | ∃ first, w = writeEvents g first})
      (fun _ => ?_) fun _ _ w hw => ?_
    · refine .bind_silent (readInode_readOnly g _) fun inode => .bind_silent (block_readOnly g _) fun blk =>
        .bind_silent (inBounds_readOnly _) fun src => ?_
      exact (write_prints _ src 0).bind (K := fun _ _ => 1) (fun _ => .pure rfl) fun _ _ w hw => by
        rw [mul_one] at hw
        exact ⟨_,hw⟩
    · obtain ⟨u,⟨placed,hlen,rfl⟩,v,⟨first,rfl⟩,rfl⟩ := Language.mem_mul.mp hw
      exact ⟨i,Or.inr ⟨placed,first,hlen,rfl⟩⟩

theorem pass2Step_prints (fuel : ℕ) (bitmap counts : Buf) (i : ℕ) :
    Prints Device.out (pass2Step g fuel bitmap counts i) fun _ => (adoptReport g)∗ := by
  have hsame : Prints Device.out (pure counts : Fsck Buf) fun _ => (adoptReport g)∗ :=
    .pure (Language.nil_mem_kstar _)
  refine .bind_silent (readInode_readOnly g i) fun inode => .ite (fun _ => hsame) fun _ => ?_
  refine .bind_silent (inBounds_readOnly _) fun bit => .ite (fun _ => ?_) fun _ => hsame
  refine .bind_silent (inBounds_readOnly _) fun c => .ite (fun _ => ?_) fun _ => hsame
  refine print_bind_prints (L := fun _ => {w | Event.unreferencedInode i::w ∈ adoptReport g}) ?_
    fun _ w hw => mem_kstar_self hw
  have hcount : ReadOnly (if inodeIsDir inode then directoryTraversor g fuel counts i
      else pure counts) := by
    split
    · exact directoryTraversor_readOnly g _ _ _
    · exact .pure _
  have hadd : ∀ c : Buf, Prints Device.out (addToLostFound g i >>= fun _ => pure c)
      fun _ => {w | Event.unreferencedInode i::w ∈ adoptReport g} := fun c =>
    (addToLostFound_prints i).bind (K := fun _ _ => 1) (fun _ => .pure rfl) fun _ _ => (mul_one _).le
  have h : Prints Device.out _ _ := .bind_silent hcount hadd
  cases hd : inodeIsDir inode <;> rw [hd] at h <;> exact h

theorem pass2_prints (fuel : ℕ) : Prints Device.out (pass2 g fuel) fun _ => (adoptReport g)∗ := by
  refine .bind_silent (directoryTraversor_readOnly g _ _ _) fun counts =>
    .bind_silent (getInodeBitmapInPartition_readOnly g) fun bitmap => ?_
  exact (Prints.foldlM_kstar _ (fun c i _ => pass2Step_prints fuel bitmap c i) counts).bind
    (K := fun _ _ => 1) (fun _ => .pure rfl) fun _ _ => (mul_one _).le

theorem writeInode_prints (i v : ℕ) :
    Prints Device.out (g.writeInode i v) fun _ => {writeEvents g (g.linkHome i)} := by
  refine .bind_silent (checkDivisor_readOnly _) fun _ => readGroupDesc_prints ⟨(),_,rfl⟩ fun gd hgd => ?_
  refine .bind_silent (readBlocks_readOnly g _ _ _) fun t => .bind_silent (inBounds_readOnly _) fun t' => ?_
  rw [Globals.linkHome,hgd]
  exact write_prints _ _ _

theorem pass3Step_prints (counts : Buf) {i : ℕ} (hi : i ∈ List.range' 1 g.superBlock.sInodesCount) :
    Prints Device.out (pass3Step g counts i) fun _ => (linkReport g)∗ := by
  refine .bind_silent (readInode_readOnly g i) fun inode => .bind_silent (inBounds_readOnly _) fun c => ?_
  refine .ite (fun hne => ?_) fun _ => .pure (Language.nil_mem_kstar _)
  refine print_bind_prints (writeInode_prints i _) fun _ w hw => mem_kstar_self ?_
  obtain rfl : w = writeEvents g (g.linkHome i) := hw
  obtain ⟨h1,hlt⟩ := List.mem_range'_1.mp hi
  exact ⟨i,inode.iLinksCount,c,h1,by omega,hne,rfl⟩

theorem pass3_prints (fuel : ℕ) : Prints Device.out (pass3 g fuel) fun _ => (linkReport g)∗ :=
  .bind_silent (directoryTraversor_readOnly g _ _ _) fun counts =>
    Prints.foldlM_kstar _ (fun _ _ hi => pass3Step_prints counts hi) ()

end Passes

section Pass4

variable {g : Globals}

theorem getFileBlockBitmap_prints (bm : Buf) (inode : Inode) :
    Prints Device.out (getFileBlockBitmap g bm inode) fun _ => {[Event.tooLarge]}∗ := by
  have hnil := fun _ : Buf => Language.nil_mem_kstar ({[Event.tooLarge]} : Language Event)
  unfold getFileBlockBitmap
  refine .ite (fun _ => .of_readOnly (inBounds_readOnly _) hnil) fun _ => .ite (fun _ => ?_) fun _ =>
    .ite (fun _ => ?_) fun _ => ?_
  · exact .of_readOnly ((inBounds_readOnly _).bind fun _ => (inBounds_readOnly _).bind fun _ =>
      (block_readOnly g _).bind fun _ => (inBounds_readOnly _).bind fun _ => .pure _) hnil
  · exact .of_readOnly ((inBounds_readOnly _).bind fun _ => (inBounds_readOnly _).bind fun _ =>
      (block_readOnly g _).bind fun _ => (inBounds_readOnly _).bind fun _ =>
        (inBounds_readOnly _).bind fun _ => (block_readOnly g _).bind fun _ =>
          markSecondLevel_readOnly _ _ _ _ _ _) hnil
  · refine print_bind_prints (f := fun _ => pure bm) (L := fun _ => 1) (.pure rfl) fun _ w hw =>
      mem_kstar_self ?_
    obtain rfl : w = [] := hw
    rfl

theorem getTrueBlockBitmap_prints (fuel : ℕ) (bm : Buf) (x : ℕ) :
    Prints Device.out (getTrueBlockBitmap g fuel bm x) fun _ => {[Event.tooLarge]}∗ := by
  have hnil := fun _ : Buf => Language.nil_mem_kstar ({[Event.tooLarge]} : Language Event)
  induction fuel generalizing bm x with
  | zero => exact .throw hnil
  | succ fuel ih =>
    rw [getTrueBlockBitmap]
    refine .bind_silent (readInode_readOnly g x) fun inode => .ite (fun _ => .pure (hnil bm)) fun _ =>
      .ite (fun _ => getFileBlockBitmap_prints bm inode) fun _ => forBlocks_prints (fun i b bm => ?_) _ _ _
    refine .bind_silent (inBounds_readOnly _) fun bm' => .bind_silent (block_readOnly g b) fun blk => ?_
    exact scanEntries_prints (fun count _ e bm => .ite (fun _ => ih bm e.inode) fun _ => .pure (hnil bm)) _ _ _ _

/-- Differences, with the flag before and after them. -/
def flagged (s s' : Buf × Bool) : Language Event :=
  {w | ∃ bs : List ℕ, w = bs.map .bitmapDifference ∧ (s'.2 = true ↔ s.2 = true ∨ bs ≠ [])}

theorem nil_mem_flagged (s : Buf × Bool) : [] ∈ flagged s s := ⟨[],rfl,by simp⟩

theorem flagged_mul_le (s t u : Buf × Bool) : flagged s t*flagged t u ≤ flagged s u := by
  intro w hw
  obtain ⟨v,⟨bs,rfl,hbs⟩,v',⟨bs',rfl,hbs'⟩,rfl⟩ := Language.mem_mul.mp hw
  refine ⟨bs++bs',(List.map_append).symm,?_⟩
  rw [hbs',hbs,or_assoc,Ne,Ne,Ne,List.append_eq_nil_iff,Classical.not_and_iff_not_or_not]

theorem checkBit_prints (s : Buf × Bool) (block_id : ℕ) (should_be alloc_bit : Byte) :
    Prints Device.out (checkBit s.1 s.2 block_id should_be alloc_bit) (flagged s) := by
  unfold checkBit
  refine .ite (fun _ => ?_) fun _ => .pure (nil_mem_flagged s)
  refine print_bind_prints (L := fun s' => {w | w = [] ∧ s'.2 = true}) ?_ fun s' w hw => ?_
  · exact .bind_silent (inBounds_readOnly _) fun bm => .pure ⟨rfl,rfl⟩
  · obtain ⟨rfl,hs'⟩ := hw
    exact ⟨[block_id],rfl,by simp [hs']⟩

theorem checkGroup_prints (true_bitmap : Buf) (turns block_id : ℕ) (s : Buf × Bool) :
    Prints Device.out (checkGroup g true_bitmap turns block_id s) fun r => flagged s r.2 := by
  induction turns generalizing block_id s with
  | zero => exact .pure (nil_mem_flagged s)
  | succ turns ih =>
    refine .bind_silent (inBounds_readOnly _) fun bit => .bind_silent (inBounds_readOnly _) fun t => ?_
    refine (checkBit_prints s block_id t bit).bind (K := fun s' r => flagged s' r.2) (fun s' => ?_)
      fun s' r => flagged_mul_le s s' r.2
    exact .ite (fun _ => .pure (nil_mem_flagged s')) fun _ => ih _ s'

theorem checkGroups_prints (true_bitmap : Buf) (groups block_id : ℕ) (s : Buf × Bool) :
    Prints Device.out (checkGroups g true_bitmap groups block_id s) (flagged s) := by
  induction groups generalizing block_id s with
  | zero => exact .pure (nil_mem_flagged s)
  | succ groups ih =>
    exact (checkGroup_prints true_bitmap _ _ s).bind (K := fun r => flagged r.2) (fun r => ih r.1 r.2)
      fun r s' => flagged_mul_le s r.2 s'

theorem checkInodeTables_prints (s : Buf × Bool) :
    Prints Device.out (checkInodeTables g s) (flagged s) :=
  .foldlM_rel nil_mem_flagged flagged_mul_le _ (fun s _ _ =>
    .bind_silent (readGroupDesc_readOnly g _) fun _ =>
      .foldlM_rel nil_mem_flagged flagged_mul_le _ (fun s _ _ =>
        .bind_silent (inBounds_readOnly _) fun bit => checkBit_prints s _ 1 bit) s) s

theorem writeBlockBitmapInPartition_prints (bitmap : Buf) :
    Prints Device.out (g.writeBlockBitmapInPartition bitmap) fun _ => {bitmapWrites g} := by
  refine .foldlM_words _ (fun _ a => ?_) ()
  refine readGroupDesc_prints ⟨(),_,rfl⟩ fun gd hgd => .foldlM_words _ (fun _ i => ?_) ()
  have hblock : u32 (g.bitmapHome a+i) = u32 (gd.bgBlockBitmap+i) := by
    rw [Globals.bitmapHome,hgd]
    exact Nat.mod_add_mod _ _ _
  rw [hblock]
  exact write_prints _ _ _

theorem kstar_tooLarge {w : List Event} (h : w ∈ ({[Event.tooLarge]}∗ : Language Event)) :
    ∃ n, w = List.replicate n .tooLarge := by
  obtain ⟨ws,rfl,hws⟩ := Language.mem_kstar.mp h
  refine ⟨ws.length,?_⟩
  rw [List.eq_replicate_of_mem hws]
  simp

theorem pass4_prints (fuel : ℕ) : Prints Device.out (pass4 g fuel) fun _ => bitmapReport g := by
  refine .bind_silent (checkDivisor_readOnly _) fun _ =>
    .bind_silent (getBlockBitmapInPartition_readOnly g) fun bitmap => ?_
  have hchecks : ∀ t, Prints Device.out
      (checkGroups g t g.getBlockGroupNum 1 (bitmap,false) >>= fun s => checkInodeTables g s >>= fun s =>
        if s.2 then g.writeBlockBitmapInPartition s.1 else pure ())
      fun _ => {w | ∃ bs : List ℕ, w = bs.map .bitmapDifference ++ if bs = [] then [] else bitmapWrites g} := by
    intro t
    refine (checkGroups_prints t _ 1 (bitmap,false)).bind
      (K := fun s _ => {w | ∃ s' : Buf × Bool, w ∈ flagged s s'*if s'.2 then {bitmapWrites g} else 1})
      (fun s => ?_) fun s _ w hw => ?_
    · refine (checkInodeTables_prints s).bind
        (K := fun s' _ => if s'.2 then {bitmapWrites g} else 1) (fun s' => ?_) fun s' _ w hw => ⟨s',hw⟩
      cases hs' : s'.2 with
      | true => exact writeBlockBitmapInPartition_prints s'.1
      | false => exact .pure rfl
    · obtain ⟨u,hu,v,⟨s',hv⟩,rfl⟩ := Language.mem_mul.mp hw
      obtain ⟨u',hu',v',hv',rfl⟩ := Language.mem_mul.mp hv
      obtain ⟨bs,hbs,hflag⟩ := flagged_mul_le _ _ _ (Language.append_mem_mul hu hu')
      refine ⟨bs,?_⟩
      rw [← List.append_assoc,hbs]
      congr 1
      by_cases hne : bs = []
      · have hs' : s'.2 = false := by simpa [hne] using hflag
        rw [hs'] at hv'
        rw [if_pos hne]
        exact hv'
      · have hs' : s'.2 = true := by simpa [hne] using hflag
        rw [hs'] at hv'
        rw [if_neg hne]
        exact hv'
  refine (getTrueBlockBitmap_prints fuel _ rootInodeNum).bind hchecks fun t _ w hw => ?_
  obtain ⟨u,hu,v,⟨bs,rfl⟩,rfl⟩ := Language.mem_mul.mp hw
  obtain ⟨n,rfl⟩ := kstar_tooLarge hu
  exact ⟨n,bs,rfl⟩

end Pass4

/-- The output of the four passes: each report of the first three is followed at once by the writes
that belong to it, and those of the last by the writes of all bitmaps. A run that stops has put the
beginning of such an output on the log. -/
theorem passes_prints (g : Globals) (fuel : ℕ) :
    Prints Device.out (passes g fuel) fun _ => passesReport g :=
  (pass1_prints fuel _ _).bind (fun _ => (pass2_prints fuel).bind (fun _ => (pass3_prints fuel).bind
    (fun _ => pass4_prints fuel) fun _ _ => le_rfl) fun _ _ => le_rfl) fun _ _ => le_rfl

/-- The byte lies in sectors whose number a line of `w` gives. -/
def InSectors (w : List Event) (k : ℕ) : Prop :=
  ∃ start_sector num_sectors, Event.writeSectors start_sector num_sectors ∈ w ∧
    start_sector*sectorSizeBytes ≤ k ∧ k < (start_sector+num_sectors)*sectorSizeBytes

/-- The output has grown by lines that name the sectors of every byte that has changed. -/
def Announced (d d' : Device) : Prop :=
  ∃ w, d'.out = d.out ++ w ∧ d.image.size ≤ d'.image.size ∧
    ∀ k, ¬ InSectors w k → d'.image.byte k = d.image.byte k

theorem Announced.refl (d : Device) : Announced d d := ⟨[],(List.append_nil _).symm,le_rfl,fun _ _ => rfl⟩

theorem inSectors_append {v w : List Event} {k : ℕ} (h : InSectors v k ∨ InSectors w k) :
    InSectors (v++w) k := by
  rcases h with ⟨s,n,hmem,hk⟩ | ⟨s,n,hmem,hk⟩
  · exact ⟨s,n,List.mem_append_left w hmem,hk⟩
  · exact ⟨s,n,List.mem_append_right v hmem,hk⟩

theorem Announced.trans {d d' d'' : Device} (h : Announced d d') (h' : Announced d' d'') :
    Announced d d'' := by
  obtain ⟨v,hv,hsize,hbyte⟩ := h
  obtain ⟨w,hw,hsize',hbyte'⟩ := h'
  refine ⟨v++w,by rw [hw,hv,List.append_assoc],hsize.trans hsize',fun k hk => ?_⟩
  rw [hbyte' k fun h => hk (inSectors_append (Or.inr h)),hbyte k fun h => hk (inSectors_append (Or.inl h))]

theorem lasting_announced (g : Globals) (d : Device) : Lasting g (Announced d) where
  print e d' hd' := hd'.trans ⟨[e],rfl,le_rfl,fun _ _ => rfl⟩
  write b src pos := by
    intro d' hd'
    unfold Globals.write writeBlock writeSectors
    cases hw : src.window pos (sectorSizeBytes*(g.blockSize/sectorSizeBytes)) with
    | none =>
      simp only [EStateM.run_bind,print_run,hw,inBounds_none]
      exact hd'.trans ⟨[.writeBlock b],rfl,le_rfl,fun _ _ => rfl⟩
    | some bytes =>
      simp only [EStateM.run_bind,print_run,hw,inBounds_some,EStateM.run_modify]
      have hbytes : bytes.size = sectorSizeBytes*(g.blockSize/sectorSizeBytes) := by
        unfold Buf.window at hw
        split at hw
        · rw [← Option.some.inj hw,Buf.slice_size]
        · simp at hw
      refine hd'.trans ⟨writeEvents g b,List.append_assoc d'.out [.writeBlock b] _,le_max_left _ _,fun k hk => ?_⟩
      refine Buf.patch_byte_out ?_
      by_contra hin
      refine hk ⟨_,_,List.mem_cons_of_mem _ (List.mem_singleton_self _),by omega,?_⟩
      rw [Nat.add_mul,Nat.mul_comm (g.blockSize/sectorSizeBytes),← hbytes]
      omega

theorem readMbr_readOnly (stack : ℕ → Byte) (mbr : Buf) (n : ℤ) : ReadOnly (readMbr stack mbr n) := by
  unfold readMbr
  dsimp only
  split
  · exact .pure _
  · exact .throw _

theorem readEbr_readOnly (stack : ℕ → Byte) (fuel start stop : ℕ) (n : ℤ) (last : PartitionEntry) :
    ReadOnly (readEbr stack fuel start stop n last) := by
  induction fuel generalizing start stop n last with
  | zero => exact .throw _
  | succ fuel ih =>
    rw [readEbr]
    split
    · exact .pure _
    · split
      · exact .pure _
      · refine (readSectors_readOnly _ _).bind fun sector => ?_
        dsimp only
        split
        · exact .pure _
        · split
          · exact ih _ _ _ _
          · exact ih _ _ _ _

theorem findExtended_readOnly (stack : ℕ → Byte) (mbr : Buf) (is : List ℤ) :
    ReadOnly (findExtended stack mbr is) := by
  induction is with
  | nil => exact .pure _
  | cons i is ih =>
    refine (readMbr_readOnly stack mbr i).bind fun entry => ?_
    split
    · exact .pure _
    · exact ih

theorem readPartitionInfo_readOnly (stack : ℕ → Byte) (fuel : ℕ) (old : PartitionEntry) (n : ℤ) :
    ReadOnly (readPartitionInfo stack fuel old n) := by
  refine (readSectors_readOnly 0 1).bind fun mbr => ?_
  split
  · exact readMbr_readOnly stack mbr n
  · refine (findExtended_readOnly stack mbr _).bind fun base => ?_
    cases base with
    | none => exact .pure _
    | some base => exact readEbr_readOnly stack fuel _ _ _ _

theorem correctOnePartition_keeps {I : Device → Prop} (hI : ∀ g, Lasting g I) (stack : ℕ → Byte)
    (fuel : ℕ) (old : PartitionEntry) (n : ℤ) :
    Triple I (correctOnePartition stack fuel old n) (fun _ => I) I := by
  refine (readPartitionInfo_readOnly stack fuel old n).keeps.bind fun e => ?_
  refine .ite (fun _ => (ReadOnly.pure _).keeps) fun _ => .ite (fun _ => (ReadOnly.pure _).keeps) fun _ => ?_
  exact (loadGlobals_readOnly e).keeps.bind fun g => (passes_keeps (hI g) fuel).bind fun _ =>
    (ReadOnly.pure _).keeps

theorem correctAll_keeps {I : Device → Prop} (hI : ∀ g, Lasting g I) (stack : ℕ → Byte) (fuel : ℕ)
    (left : ℤ → ℤ) (turns : ℕ) (i : ℤ) (old : PartitionEntry) :
    Triple I (correctAll stack fuel left turns i old) (fun _ => I) I := by
  induction turns generalizing i old with
  | zero => exact (ReadOnly.throw _).keeps
  | succ turns ih =>
    refine (correctOnePartition_keeps hI stack fuel old i).bind fun r => ?_
    exact .ite (fun _ => (ReadOnly.pure _).keeps) fun _ => (ih _ _).bind fun _ => (ReadOnly.pure _).keeps

/-- Over a whole run, on one partition or on all of them, and whichever way it ends, the output grows
by lines that name the sectors of every byte that has changed. -/
theorem correctPartition_announced (stack : ℕ → Byte) (fuel : ℕ) (left : ℤ → ℤ) (turns : ℕ)
    (old : PartitionEntry) (partition_num : ℤ) (d : Device) :
    Announced d (endState (correctPartition stack fuel left turns old partition_num) d) := by
  have hI : ∀ g, Lasting g (Announced d) := fun g => lasting_announced g d
  have h : Triple (Announced d) (correctPartition stack fuel left turns old partition_num)
      (fun _ => Announced d) (Announced d) :=
    .ite (fun _ => correctAll_keeps hI stack fuel left turns 1 old) fun _ =>
      (correctOnePartition_keeps hI stack fuel old partition_num).bind fun _ => (ReadOnly.pure _).keeps
  exact h.endState (.refl d)

end MyFsck
