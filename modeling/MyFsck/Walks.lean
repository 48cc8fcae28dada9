import MyFsck.Directory

/-! The three walkers of the program as one step: what a call does, with the calls it makes of itself
as a parameter, and with a `note` where it begins to go through the inode's blocks as a directory. -/
namespace MyFsck

open ByteBuffer ErrorState

section Steps

variable (g : Globals) (note : ℕ → Fsck Unit)

/-- What `pass1` does with an entry of a block of directory `inode_num`. -/
def pass1Entry (visit : ℕ → ℕ → Fsck Unit) (block_id parent_inode_num inode_num count offset : ℕ)
    (entry : DirEntry) (dir_block : Buf) : Fsck Buf :=
  if dirIsDir entry then
    if count = 0 then
      if entry.inode ≠ inode_num then do
        print (.dirEntryIncorrect inode_num entry.name entry.inode)
        pass1Corrector g dir_block block_id offset inode_num
      else pure dir_block
    else if count = 1 then
      if entry.inode ≠ parent_inode_num then do
        print (.dirEntryIncorrect parent_inode_num entry.name entry.inode)
        pass1Corrector g dir_block block_id offset parent_inode_num
      else pure dir_block
    else do
      visit inode_num entry.inode
      pure dir_block
  else pure dir_block

/-- What it does with a block. -/
def pass1Block (visit : ℕ → ℕ → Fsck Unit) (parent_inode_num inode_num _i block_id : ℕ) (_u : Unit) :
    Fsck Unit := do
  let dir_block ← g.block block_id
  let _ ← scanEntries g.blockSize id (pass1Entry g visit block_id parent_inode_num inode_num)
    g.blockSize 0 0 dir_block
  pure ()

def pass1Call (visit : ℕ → ℕ → Fsck Unit) (parent_inode_num inode_num : ℕ) : Fsck Unit := do
  let inode ← g.readInode inode_num
  if notInodeIsDir inode then pure ()
  else do
    note inode_num
    forBlocks (pass1Block g visit parent_inode_num inode_num) 0 inode.iBlock ()

/-- What `directory_traversor` does with an entry of block number `i` of a directory. -/
def traversorEntry (visit : Buf → ℕ → Fsck Buf) (i count : ℕ) (_offset : ℕ) (entry : DirEntry)
    (counts : Buf) : Fsck Buf := do
  let counts ← inBounds (countUp counts entry.inode)
  if i ≠ 0 ∨ 2 ≤ count then
    if dirIsDir entry then visit counts entry.inode else pure counts
  else pure counts

def traversorBlock (visit : Buf → ℕ → Fsck Buf) (i block_id : ℕ) (counts : Buf) : Fsck Buf := do
  let dir_block ← g.block block_id
  scanEntries g.blockSize (fun _ => dir_block) (traversorEntry visit i) g.blockSize 0 0 counts

def traversorCall (visit : Buf → ℕ → Fsck Buf) (counts : Buf) (inode_num : ℕ) : Fsck Buf := do
  let inode ← g.readInode inode_num
  note inode_num
  forBlocks (traversorBlock g visit) 0 inode.iBlock counts

/-- What `get_true_block_bitmap` does with an entry of block number `i` of a directory. -/
def bitmapEntry (visit : Buf → ℕ → Fsck Buf) (i count : ℕ) (_offset : ℕ) (entry : DirEntry)
    (block_bitmap : Buf) : Fsck Buf :=
  if i ≠ 0 ∨ 2 ≤ count then visit block_bitmap entry.inode else pure block_bitmap

def bitmapBlock (visit : Buf → ℕ → Fsck Buf) (i block_id : ℕ) (block_bitmap : Buf) : Fsck Buf := do
  let block_bitmap ← inBounds (mark block_bitmap block_id)
  let dir_block ← g.block block_id
  scanEntries g.blockSize (fun _ => dir_block) (bitmapEntry visit i) g.blockSize 0 0 block_bitmap

def bitmapCall (visit : Buf → ℕ → Fsck Buf) (block_bitmap : Buf) (inode_num : ℕ) : Fsck Buf := do
  let inode ← g.readInode inode_num
  if inodeIsLnk inode then pure block_bitmap
  else if inodeIsReg inode then getFileBlockBitmap g block_bitmap inode
  else do
    note inode_num
    forBlocks (bitmapBlock g visit) 0 inode.iBlock block_bitmap

end Steps

section Noted

variable (g : Globals) (note : ℕ → Fsck Unit)

def pass1Noted : ℕ → (parent_inode_num inode_num : ℕ) → Fsck Unit
  | 0, _, _ => throw .outOfFuel
  | fuel+1, parent_inode_num, inode_num =>
    pass1Call g note (pass1Noted fuel) parent_inode_num inode_num

def traversorNoted : ℕ → (counts : Buf) → (inode_num : ℕ) → Fsck Buf
  | 0, _, _ => throw .outOfFuel
  | fuel+1, counts, inode_num => traversorCall g note (traversorNoted fuel) counts inode_num

def bitmapNoted : ℕ → (block_bitmap : Buf) → (inode_num : ℕ) → Fsck Buf
  | 0, _, _ => throw .outOfFuel
  | fuel+1, block_bitmap, inode_num => bitmapCall g note (bitmapNoted fuel) block_bitmap inode_num

end Noted

/-- No note at all. -/
def silent (_ : ℕ) : Fsck Unit := pure ()

/-- The note that puts the inode on the log. -/
def written (inode_num : ℕ) : Fsck Unit := print (.expand inode_num)

theorem pass1_succ (g : Globals) (fuel parent_inode_num inode_num : ℕ) :
    pass1 g (fuel+1) parent_inode_num inode_num =
      pass1Call g silent (pass1 g fuel) parent_inode_num inode_num := rfl

theorem directoryTraversor_succ (g : Globals) (fuel : ℕ) (counts : Buf) (inode_num : ℕ) :
    directoryTraversor g (fuel+1) counts inode_num =
      traversorCall g silent (directoryTraversor g fuel) counts inode_num := rfl

theorem getTrueBlockBitmap_succ (g : Globals) (fuel : ℕ) (block_bitmap : Buf) (inode_num : ℕ) :
    getTrueBlockBitmap g (fuel+1) block_bitmap inode_num =
      bitmapCall g silent (getTrueBlockBitmap g fuel) block_bitmap inode_num := rfl

theorem pass1Noted_silent (g : Globals) (fuel : ℕ) : pass1Noted g silent fuel = pass1 g fuel := by
  induction fuel with
  | zero => rfl
  | succ fuel ih =>
    funext p x
    rw [pass1Noted,ih,pass1_succ]

theorem traversorNoted_silent (g : Globals) (fuel : ℕ) :
    traversorNoted g silent fuel = directoryTraversor g fuel := by
  induction fuel with
  | zero => rfl
  | succ fuel ih =>
    funext counts x
    rw [traversorNoted,ih,directoryTraversor_succ]

theorem bitmapNoted_silent (g : Globals) (fuel : ℕ) :
    bitmapNoted g silent fuel = getTrueBlockBitmap g fuel := by
  induction fuel with
  | zero => rfl
  | succ fuel ih =>
    funext bm x
    rw [bitmapNoted,ih,getTrueBlockBitmap_succ]

section Loops

variable {α β σ τ : Type} {I : Device → Device → Prop} {R : σ → τ → Prop}

theorem inBounds_alike {R : α → β → Prop} {o : Option α} {o' : Option β} (h : Option.Rel R o o') :
    Alike I R (inBounds o) (inBounds o') := by
  cases h with
  | none => exact .throw _
  | some h => exact .pure h

theorem inBounds_same (o : Option α) : Alike I Eq (inBounds o) (inBounds o) := by
  cases o with
  | none => exact .throw _
  | some a => exact .pure rfl

theorem checkDivisor_same (n : ℕ) : Alike I Eq (checkDivisor n) (checkDivisor n) := by
  unfold checkDivisor
  split
  · exact .throw _
  · exact .pure rfl

theorem forBlocks_alike {body : ℕ → ℕ → σ → Fsck σ} {body' : ℕ → ℕ → τ → Fsck τ} {bs : List ℕ}
    (h : ∀ i, ∀ b ∈ bs.takeWhile (· ≠ 0), ∀ s t, R s t → Alike I R (body i b s) (body' i b t)) (i : ℕ)
    {s : σ} {t : τ} (hst : R s t) : Alike I R (forBlocks body i bs s) (forBlocks body' i bs t) := by
  induction bs generalizing i s t with
  | nil => exact .pure hst
  | cons b bs ih =>
    rw [forBlocks,forBlocks]
    by_cases hb : b = 0
    · rw [if_pos hb,if_pos hb]
      exact .pure hst
    · rw [if_neg hb,if_neg hb]
      rw [List.takeWhile_cons_of_pos (by simpa using hb)] at h
      exact (h i b (by simp) s t hst).bind fun s' t' hst' =>
        ih (fun i c hc => h i c (List.mem_cons_of_mem _ hc)) (i+1) hst'

theorem scanEntries_alike {n : ℕ} {blk : σ → Buf} {blk' : τ → Buf}
    {body : ℕ → ℕ → DirEntry → σ → Fsck σ} {body' : ℕ → ℕ → DirEntry → τ → Fsck τ}
    (hblk : ∀ s t, R s t → blk s = blk' t)
    (h : ∀ count off e s t, R s t → Alike I R (body count off e s) (body' count off e t))
    (turns off count : ℕ) {s : σ} {t : τ} (hst : R s t) :
    Alike I R (scanEntries n blk body turns off count s) (scanEntries n blk' body' turns off count t) := by
  induction turns generalizing off count s t with
  | zero =>
    rw [scanEntries,scanEntries]
    split
    · exact .throw _
    · exact .pure hst
  | succ turns ih =>
    rw [scanEntries,scanEntries,hblk s t hst]
    split
    · refine (inBounds_same _).bind_same fun r => ?_
      cases r with
      | none => exact .pure hst
      | some e => exact (h count off e s t hst).bind fun s' t' hst' => ih (off+e.recLen) (count+1) hst'
    · exact .pure hst

end Loops

/-- The log is only written: what a run does and gives does not depend on it. -/
def SameImage (d d' : Device) : Prop := d.image = d'.image

/-- From devices with one image, `x` and `y` do the same and give the same. -/
def SameRun {α : Type} (x y : Fsck α) : Prop := Alike SameImage Eq x y

namespace SameRun

variable {α β σ : Type} {R : α → β → Prop}

theorem print (e e' : Event) : SameRun (print e) (print e') :=
  fun _ _ h => Or.inl ⟨(),(),_,_,rfl,rfl,rfl,h⟩

theorem block (g : Globals) (b : ℕ) : SameRun (g.block b) (g.block b) := by
  intro d d' h
  unfold Globals.block readBlock readSectors
  rw [bind_ok (EStateM.run_get d),bind_ok (EStateM.run_get d'),show d.image = d'.image from h]
  cases d'.image.window (blockSector g.partitionEntry.start g.blockSize b*sectorSizeBytes)
    (sectorSizeBytes*(g.blockSize/sectorSizeBytes)) with
  | none => exact Or.inr ⟨_,d,d',rfl,rfl,h⟩
  | some a => exact Or.inl ⟨a,a,d,d',rfl,rfl,rfl,h⟩

theorem readInode (g : Globals) (i : ℕ) : SameRun (g.readInode i) (g.readInode i) := by
  refine (checkDivisor_same _).bind_same fun _ => (inBounds_same _).bind_same fun _ => Alike.bind_same ?_ fun _ => inBounds_same _
  refine Alike.foldlM _ (fun c _ b b' hb => ?_) rfl
  subst hb
  exact Alike.bind_same (SameRun.block g _) fun _ => inBounds_same _

theorem write (g : Globals) (b : ℕ) (src : Buf) (pos : ℕ) :
    SameRun (g.write b src pos) (g.write b src pos) := by
  refine Alike.bind_same (SameRun.print _ _) fun _ => (inBounds_same _).bind_same fun bytes =>
    Alike.bind_same (SameRun.print _ _) fun _ => ?_
  intro d d' h
  refine Or.inl ⟨(),(),_,_,EStateM.run_modify ..,EStateM.run_modify ..,rfl,?_⟩
  exact congrArg (fun img => Buf.patch img _ _) h

theorem pass1Entry (g : Globals) {visit visit' : ℕ → ℕ → Fsck Unit}
    (h : ∀ p x, SameRun (visit p x) (visit' p x)) (block_id p x count off : ℕ) (e : DirEntry) (b : Buf) :
    SameRun (pass1Entry g visit block_id p x count off e b)
      (pass1Entry g visit' block_id p x count off e b) := by
  have hfix : ∀ ev v, SameRun (MyFsck.print ev >>= fun _ => pass1Corrector g b block_id off v)
      (MyFsck.print ev >>= fun _ => pass1Corrector g b block_id off v) := fun ev v =>
    Alike.bind_same (SameRun.print _ _) fun _ => (inBounds_same _).bind_same fun _ =>
      Alike.bind_same (SameRun.write g _ _ _) fun _ => .pure rfl
  unfold MyFsck.pass1Entry
  split
  · split
    · split
      · exact hfix _ _
      · exact .pure rfl
    · split
      · split
        · exact hfix _ _
        · exact .pure rfl
      · exact Alike.bind_same (h _ _) fun _ => .pure rfl
  · exact .pure rfl

end SameRun

section File

variable {R : Buf → Buf → Prop} (hR : ∀ c c' b, R c c' → Option.Rel R (mark c b) (mark c' b))

include hR

theorem markAll_alike {c c' : Buf} (h : R c c') (l : List ℕ) :
    Option.Rel R (markAll c l) (markAll c' l) := by
  induction l generalizing c c' with
  | nil => exact .some h
  | cons b l ih =>
    rw [markAll,markAll,List.foldlM_cons,List.foldlM_cons]
    exact rel_bind (hR c c' b h) fun _ _ h' => ih h'

theorem markPointers_alike {c c' : Buf} (h : R c c') (p : Buf) (n turns i k : ℕ) :
    Option.Rel (fun r r' => R r.1 r'.1 ∧ r.2 = r'.2) (markPointers p n turns i k c)
      (markPointers p n turns i k c') := by
  induction turns generalizing i k c c' with
  | zero => exact .some ⟨h,rfl⟩
  | succ turns ih =>
    rw [markPointers,markPointers]
    refine rel_same fun b => rel_bind (hR c c' b h) fun a a' h' => ?_
    split
    · exact .some ⟨h',rfl⟩
    · exact ih h' _ _

theorem markAllPointers_alike {c c' : Buf} (h : R c c') (p : Buf) (turns i : ℕ) :
    Option.Rel R (markAllPointers p turns i c) (markAllPointers p turns i c') := by
  induction turns generalizing i c c' with
  | zero => exact .some h
  | succ turns ih =>
    rw [markAllPointers,markAllPointers]
    exact rel_same fun b => rel_bind (hR c c' b h) fun _ _ h' => ih h' _

theorem markSecondLevel_alike (g : Globals) {c c' : Buf} (h : R c c') (p : Buf) (n turns i k : ℕ) :
    Alike SameImage R (markSecondLevel g p n turns i k c) (markSecondLevel g p n turns i k c') := by
  induction turns generalizing i k c c' with
  | zero => exact .pure h
  | succ turns ih =>
    rw [markSecondLevel,markSecondLevel]
    refine (inBounds_same _).bind_same fun id => (inBounds_alike (hR c c' id h)).bind
      fun a a' h' => Alike.bind_same (SameRun.block g id) fun p₂ =>
        (inBounds_alike (markPointers_alike hR h' p₂ n _ 0 k)).bind fun r r' hr => ?_
    obtain ⟨bm,k',returned⟩ := r
    obtain ⟨bm',rest⟩ := r'
    obtain ⟨hbm,rfl⟩ := hr
    dsimp only
    split
    · exact .pure hbm
    · exact ih hbm _ _

theorem getFileBlockBitmap_alike (g : Globals) {c c' : Buf} (h : R c c') (inode : Inode) :
    Alike SameImage R (getFileBlockBitmap g c inode) (getFileBlockBitmap g c' inode) := by
  unfold getFileBlockBitmap
  dsimp only
  split
  · exact inBounds_alike (markAll_alike hR h _)
  · split
    · exact (inBounds_alike (markAll_alike hR h _)).bind fun a a' h₁ =>
        (inBounds_alike (hR _ _ _ h₁)).bind fun b b' h₂ =>
          Alike.bind_same (SameRun.block g _) fun p =>
            (inBounds_alike (markPointers_alike hR h₂ p _ _ _ _)).bind fun r r' hr => .pure hr.1
    · split
      · exact (inBounds_alike (markAll_alike hR h _)).bind fun a a' h₁ =>
          (inBounds_alike (hR _ _ _ h₁)).bind fun b b' h₂ =>
            Alike.bind_same (SameRun.block g _) fun p =>
              (inBounds_alike (markAllPointers_alike hR h₂ p _ _)).bind fun e e' h₃ =>
                (inBounds_alike (hR _ _ _ h₃)).bind fun f f' h₄ =>
                  Alike.bind_same (SameRun.block g _) fun p₁ =>
                    markSecondLevel_alike hR g h₄ p₁ _ _ _ _
      · exact Alike.bind_same (SameRun.print _ _) fun _ => .pure h

end File

def SameSize (c c' : Buf) : Prop := c.size = c'.size

theorem mark_sameSize (c c' : Buf) (b : ℕ) (h : SameSize c c') :
    Option.Rel SameSize (mark c b) (mark c' b) := by
  unfold mark Buf.store
  rw [show c.size = c'.size from h]
  split
  · exact .some h
  · exact .none

theorem mark_same (c c' : Buf) (b : ℕ) (h : c = c') : Option.Rel Eq (mark c b) (mark c' b) := by
  rw [h]
  cases mark c' b with
  | none => exact .none
  | some a => exact .some rfl

section Same

variable (g : Globals) (note : ℕ → Fsck Unit) (hnote : ∀ x, SameRun (note x) (silent x))

include hnote

theorem pass1Noted_same (fuel p x : ℕ) : SameRun (pass1Noted g note fuel p x) (pass1 g fuel p x) := by
  induction fuel generalizing p x with
  | zero => exact .throw _
  | succ fuel ih =>
    refine Alike.bind_same (SameRun.readInode g x) fun inode => ?_
    split
    · exact .pure rfl
    · refine Alike.bind_same (hnote x) fun _ => forBlocks_alike (fun i b _ _ _ _ => ?_) _ rfl
      refine Alike.bind_same (SameRun.block g b) fun blk => Alike.bind_same ?_ fun _ => .pure rfl
      exact scanEntries_alike (fun _ _ h => h) (fun count off e s t h => by
        subst h
        exact SameRun.pass1Entry g ih b p x count off e s) _ _ _ rfl

theorem traversorNoted_same (fuel : ℕ) (counts : Buf) (x : ℕ) :
    SameRun (traversorNoted g note fuel counts x) (directoryTraversor g fuel counts x) := by
  induction fuel generalizing counts x with
  | zero => exact .throw _
  | succ fuel ih =>
    refine Alike.bind_same (SameRun.readInode g x) fun inode => Alike.bind_same (hnote x) fun _ =>
      forBlocks_alike (fun i b _ c c' hc => ?_) _ rfl
    refine Alike.bind_same (SameRun.block g b) fun blk =>
      scanEntries_alike (fun _ _ _ => rfl) (fun count off e s t h => ?_) _ _ _ hc
    subst h
    refine (inBounds_same _).bind_same fun c => ?_
    split
    · split
      · exact ih _ _
      · exact .pure rfl
    · exact .pure rfl

theorem bitmapNoted_same (fuel : ℕ) (bm : Buf) (x : ℕ) :
    SameRun (bitmapNoted g note fuel bm x) (getTrueBlockBitmap g fuel bm x) := by
  induction fuel generalizing bm x with
  | zero => exact .throw _
  | succ fuel ih =>
    refine Alike.bind_same (SameRun.readInode g x) fun inode => ?_
    split
    · exact .pure rfl
    · split
      · exact getFileBlockBitmap_alike mark_same g rfl _
      · refine Alike.bind_same (hnote x) fun _ => forBlocks_alike (fun i b _ c c' hc => ?_) _ rfl
        subst hc
        refine (inBounds_same _).bind_same fun c => Alike.bind_same (SameRun.block g b) fun blk =>
          scanEntries_alike (fun _ _ _ => rfl) (fun count off e s t h => ?_) _ _ _ rfl
        subst h
        unfold bitmapEntry
        split
        · exact ih _ _
        · exact .pure rfl

end Same

theorem written_same (x : ℕ) : SameRun (written x) (silent x) :=
  fun _ _ h => Or.inl ⟨(),(),_,_,rfl,rfl,rfl,h⟩

/-- The inodes expanded, in order. -/
def expanded (out : List Event) : List ℕ :=
  out.filterMap fun e => match e with
    | .expand x => some x
    | _ => none

@[simp] theorem expanded_nil : expanded [] = [] := rfl
@[simp] theorem expanded_append (l m : List Event) : expanded (l++m) = expanded l ++ expanded m :=
  List.filterMap_append

@[simp] theorem expanded_writeEvents (g : Globals) (b : ℕ) : expanded (writeEvents g b) = [] := rfl

end MyFsck
