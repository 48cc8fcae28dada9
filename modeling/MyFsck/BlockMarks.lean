import MyFsck.BlockBitmap
import MyFsck.TreeWalk
import MyFsck.Tree

/-! The walk of `get_true_block_bitmap`: which blocks it marks for an inode, and for a tree. -/
namespace MyFsck

open ByteBuffer ErrorState Unfolding

/-- The marking with the blocks of `l` marked as well. -/
def addMarks (bm : Buf) (l : List ℕ) : Buf := Buf.ofFn bm.size fun i => if i ∈ l then 1 else bm.byte i

@[simp] theorem addMarks_size (bm : Buf) (l : List ℕ) : (addMarks bm l).size = bm.size := rfl

theorem addMarks_byte {bm : Buf} {i : ℕ} (l : List ℕ) (h : i < bm.size) :
    (addMarks bm l).byte i = if i ∈ l then 1 else bm.byte i := Buf.ofFn_byte_lt _ h

@[simp] theorem addMarks_nil (bm : Buf) : addMarks bm [] = bm := by
  refine Buf.ext_byte rfl fun i hi => ?_
  have hi' : i < bm.size := hi
  simp [addMarks_byte [] hi']

@[simp] theorem addMarks_addMarks (bm : Buf) (l m : List ℕ) :
    addMarks (addMarks bm l) m = addMarks bm (l++m) := by
  refine Buf.ext_byte rfl fun i hi => ?_
  have hi' : i < bm.size := hi
  have hi'' : i < (addMarks bm l).size := hi
  rw [addMarks_byte m hi'',addMarks_byte l hi',addMarks_byte (l++m) hi']
  by_cases hm : i ∈ m <;> by_cases hl : i ∈ l <;> simp [hm,hl]

theorem mark_cases (bm : Buf) (b : ℕ) :
    mark bm b = some (addMarks bm [b]) ∨ (bm.size ≤ b ∧ mark bm b = none) := by
  unfold mark
  by_cases h : b < bm.size
  · refine Or.inl ?_
    rw [Buf.store_eq _ h]
    congr 1
    refine Buf.ext_byte rfl fun i hi => ?_
    have hi' : i < bm.size := hi
    rw [Buf.set_byte,addMarks_byte _ hi']
    by_cases hib : i = b
    · simp [hib,h]
    · simp [hib]
  · exact Or.inr ⟨Nat.not_lt.mp h,if_neg h⟩

theorem markAll_cases (bm : Buf) (l : List ℕ) : markAll bm l = some (addMarks bm l) ∨
    ((∃ b ∈ l, bm.size ≤ b) ∧ markAll bm l = none) := by
  induction l generalizing bm with
  | nil => exact Or.inl (by simp [markAll])
  | cons b l ih =>
    rcases mark_cases bm b with h | ⟨hb,h⟩
    · rcases ih (addMarks bm [b]) with h' | ⟨⟨c,hc,hle⟩,h'⟩
      · refine Or.inl ?_
        rw [markAll,List.foldlM_cons,h,Option.bind_eq_bind,Option.bind_some,← markAll,h',
          addMarks_addMarks]
        rfl
      · refine Or.inr ⟨⟨c,List.mem_cons_of_mem _ hc,hle⟩,?_⟩
        rw [markAll,List.foldlM_cons,h,Option.bind_eq_bind,Option.bind_some,← markAll,h']
    · refine Or.inr ⟨⟨b,by simp,hb⟩,?_⟩
      rw [markAll,List.foldlM_cons,h]
      rfl

/-- The pointers `q, …, q+m-1` of a pointer block. -/
def pointersFrom (b : Buf) (q : ℕ) : ℕ → List ℕ
  | 0 => []
  | m+1 => pointerAt b q :: pointersFrom b (q+1) m

theorem mem_pointersFrom {b : Buf} {q m x : ℕ} :
    x ∈ pointersFrom b q m ↔ ∃ j < m, pointerAt b (q+j) = x := by
  induction m generalizing q with
  | zero => simp [pointersFrom]
  | succ m ih =>
    rw [pointersFrom,List.mem_cons,ih]
    constructor
    · rintro (rfl | ⟨j,hj,rfl⟩)
      · exact ⟨0,by omega,rfl⟩
      · exact ⟨j+1,by omega,by rw [Nat.add_assoc,Nat.add_comm 1]⟩
    · rintro ⟨j,hj,rfl⟩
      cases j with
      | zero => exact Or.inl rfl
      | succ j => exact Or.inr ⟨j,by omega,by rw [Nat.add_assoc,Nat.add_comm 1]⟩

theorem parse_pointer {p : Buf} {q : ℕ} (h : 4*(q+1) ≤ p.size) :
    parse p (4*q) 4 = some (pointerAt p q) := parse_eq (by norm_num) (by omega)

theorem markPointers_cases {p : Buf} {n turns q k : ℕ} (bm : Buf) (hp : 4*(q+turns) ≤ p.size)
    (hk : k < n) : markPointers p n turns (4*q) k bm =
      some (addMarks bm (pointersFrom p q (min turns (n-k))),min n (k+turns),decide (n ≤ k+turns)) ∨
    ((∃ b ∈ pointersFrom p q (min turns (n-k)), bm.size ≤ b) ∧
      markPointers p n turns (4*q) k bm = none) := by
  induction turns generalizing q k bm with
  | zero =>
    have h₁ : min n k = k := by omega
    have h₂ : ¬ n ≤ k := by omega
    exact Or.inl (by simp [markPointers,pointersFrom,h₁,h₂])
  | succ turns ih =>
    obtain ⟨m,hm⟩ : ∃ m, min (turns+1) (n-k) = m+1 := ⟨min turns (n-k-1),by omega⟩
    rw [hm,pointersFrom,markPointers,parse_pointer (by omega),Option.bind_eq_bind,Option.bind_some]
    rcases mark_cases bm (pointerAt p q) with h | ⟨hb,h⟩
    · rw [h,Option.bind_eq_bind,Option.bind_some]
      by_cases hend : k+1 = n
      · rw [if_pos hend]
        have h₁ : m = 0 := by omega
        have h₂ : min n (k+(turns+1)) = k+1 := by omega
        have h₃ : n ≤ k+(turns+1) := by omega
        rw [h₁,h₂]
        exact Or.inl (by simp [h₃,pointersFrom])
      · have hm' : min turns (n-(k+1)) = m := by omega
        have h₁ : k+1+turns = k+(turns+1) := by omega
        have hrest := @ih (q+1) (k+1) (addMarks bm [pointerAt p q]) (by omega) (by omega)
        rw [hm',h₁,addMarks_addMarks,addMarks_size] at hrest
        rw [if_neg hend,show 4*q+4 = 4*(q+1) by ring]
        rcases hrest with h' | ⟨⟨b,hb,hle⟩,h'⟩
        · exact Or.inl h'
        · exact Or.inr ⟨⟨b,List.mem_cons_of_mem _ hb,hle⟩,h'⟩
    · exact Or.inr ⟨⟨_,by simp,hb⟩,by rw [h]; rfl⟩

theorem markAllPointers_cases {p : Buf} {turns q : ℕ} (bm : Buf) (hp : 4*(q+turns) ≤ p.size) :
    markAllPointers p turns (4*q) bm = some (addMarks bm (pointersFrom p q turns)) ∨
    ((∃ b ∈ pointersFrom p q turns, bm.size ≤ b) ∧ markAllPointers p turns (4*q) bm = none) := by
  induction turns generalizing q bm with
  | zero => exact Or.inl (by simp [markAllPointers,pointersFrom])
  | succ turns ih =>
    rw [pointersFrom,markAllPointers,parse_pointer (by omega),Option.bind_eq_bind,Option.bind_some]
    rcases mark_cases bm (pointerAt p q) with h | ⟨hb,h⟩
    · have hrest := @ih (q+1) (addMarks bm [pointerAt p q]) (by omega)
      rw [addMarks_addMarks,addMarks_size] at hrest
      rw [h,Option.bind_eq_bind,Option.bind_some,show 4*q+4 = 4*(q+1) by ring]
      rcases hrest with h' | ⟨⟨b,hb,hle⟩,h'⟩
      · exact Or.inl h'
      · exact Or.inr ⟨⟨b,List.mem_cons_of_mem _ hb,hle⟩,h'⟩
    · exact Or.inr ⟨⟨_,by simp,hb⟩,by rw [h]; rfl⟩

section File

variable (g : Globals) (img : Buf)

/-- What the loop over a double-indirect block marks when `r` blocks of the file are still to come. -/
def secondMarks (p : Buf) : (turns q r : ℕ) → List ℕ
  | 0, _, _ => []
  | turns+1, q, r =>
    pointerAt p q :: (pointersFrom (g.blockAt img (pointerAt p q)) 0 (min 256 r) ++
      if r ≤ 256 then [] else secondMarks p turns (q+1) (r-256))

/-- The blocks of a file, up to the limit of the program. -/
def fileMarks (inode : Inode) : List ℕ :=
  let n := fileBlockNum g inode
  let ind := inode.iBlock.getD ext2IndBlock 0
  let dind := inode.iBlock.getD ext2DindBlock 0
  if n ≤ ext2NdirBlocks then inode.iBlock.take n
  else if n ≤ indirectMaxBlock then
    inode.iBlock.take ext2NdirBlocks ++ ind :: pointersFrom (g.blockAt img ind) 0 (n-12)
  else if n ≤ doubleIndirectMaxBlock then
    inode.iBlock.take ext2NdirBlocks ++ ind :: (pointersFrom (g.blockAt img ind) 0 256 ++
      dind :: secondMarks g img (g.blockAt img dind) 256 0 (n-268))
  else []

end File

section FileRun

variable {g : Globals} {d : Device}

/-- `x` gives `a` and leaves the device alone, or it stops because one of the blocks of `l` is not in
the file system. -/
def Follows {α : Type} (g : Globals) (d : Device) (l : List ℕ) (x : Fsck α) (a : α) : Prop :=
  x.run d = .ok a d ∨ ((∃ b ∈ l, g.superBlock.sBlocksCount ≤ b) ∧ ∃ e, x.run d = .error e d)

namespace Follows

variable {α β : Type} {l m : List ℕ} {x : Fsck α} {f : α → Fsck β} {a : α} {b : β}

theorem pure : Follows g d l (Pure.pure a) a := Or.inl rfl

theorem bind (hx : Follows g d l x a) (hf : x.run d = .ok a d → Follows g d l (f a) b) :
    Follows g d l (x >>= f) b := by
  rcases hx with h | ⟨hb,e,h⟩
  · rw [Follows,bind_ok h]
    exact hf h
  · exact Or.inr ⟨hb,e,bind_error h⟩

theorem mono (hx : Follows g d l x a) (h : ∀ c ∈ l, c ∈ m) : Follows g d m x a := by
  rcases hx with hx | ⟨⟨c,hc,hle⟩,he⟩
  · exact Or.inl hx
  · exact Or.inr ⟨⟨c,h c hc,hle⟩,he⟩

theorem of_cases {o : Option α} {n : ℕ} (h : o = some a ∨ ((∃ b ∈ l, n ≤ b) ∧ o = none))
    (hn : n = g.superBlock.sBlocksCount+1) : Follows g d l (inBounds o) a := by
  rcases h with h | ⟨⟨c,hc,hle⟩,h⟩
  · rw [h]
    exact Or.inl (inBounds_some a d)
  · rw [h]
    exact Or.inr ⟨⟨c,hc,by omega⟩,_,inBounds_none d⟩

end Follows

variable {bm : Buf} {b : ℕ}

theorem mark_follows (hbm : bm.size = g.superBlock.sBlocksCount+1) :
    Follows g d [b] (inBounds (mark bm b)) (addMarks bm [b]) := by
  refine .of_cases ?_ hbm
  rcases mark_cases bm b with h | ⟨hle,h⟩
  · exact Or.inl h
  · exact Or.inr ⟨⟨b,by simp,hle⟩,h⟩

theorem mark_le (hbm : bm.size = g.superBlock.sBlocksCount+1)
    (h : (inBounds (mark bm b)).run d = .ok (addMarks bm [b]) d) : b ≤ g.superBlock.sBlocksCount := by
  rcases mark_cases bm b with h' | ⟨hle,h'⟩
  · unfold mark Buf.store at h'
    split at h'
    · omega
    · cases h'
  · rw [h'] at h
    cases h

theorem block_follows (hg : Geometry g) (hf : g.Fits d.image) (hb : b ≤ g.superBlock.sBlocksCount) :
    Follows g d [b] (g.block b) (g.blockAt d.image b) := by
  by_cases hlt : b < g.superBlock.sBlocksCount
  · exact Or.inl (block_run hg.sizes hf hlt)
  · have harea := hg.sizes.areaOffset_eq hb
    by_cases hin : g.areaOffset b+g.blockSize ≤ d.image.size
    · refine Or.inl ?_
      rw [block_area_run hg.sector_dvd hin,harea]
      rfl
    · exact Or.inr ⟨⟨b,by simp,Nat.not_lt.mp hlt⟩,.exit,block_area_stops hg.sector_dvd hin⟩

theorem markSecondLevel_follows (hg : Geometry g) (hbs : g.blockSize = 1024)
    (hf : g.Fits d.image) {p : Buf} {n turns q k : ℕ} (hp : 4*(q+turns) ≤ p.size)
    (hbm : bm.size = g.superBlock.sBlocksCount+1) (hk : k < n) :
    Follows g d (secondMarks g d.image p turns q (n-k)) (markSecondLevel g p n turns (4*q) k bm)
      (addMarks bm (secondMarks g d.image p turns q (n-k))) := by
  induction turns generalizing q k bm with
  | zero =>
    rw [markSecondLevel,secondMarks,addMarks_nil]
    exact .pure
  | succ turns ih =>
    have hpp : pointersPerBlock g = 256 := by rw [pointersPerBlock,hbs]
    rw [markSecondLevel,secondMarks,parse_pointer (by omega)]
    refine .bind (Or.inl (inBounds_some _ d)) fun _ => ?_
    refine .bind ((mark_follows hbm).mono (by simp)) fun hmark => ?_
    refine .bind ((block_follows hg hf (mark_le hbm hmark)).mono (by simp)) fun _ => ?_
    have hptr := @markPointers_cases (g.blockAt d.image (pointerAt p q)) n 256 0 k
      (addMarks bm [pointerAt p q]) (by rw [blockAt_size,hbs]) hk
    rw [Nat.mul_zero,addMarks_addMarks,addMarks_size] at hptr
    rw [hpp]
    refine .bind ((Follows.of_cases hptr hbm).mono (by simp +contextual)) fun _ => ?_
    dsimp only
    by_cases hend : n ≤ k+256
    · have hr : n-k ≤ 256 := by omega
      rw [if_pos (decide_eq_true hend),if_pos hr,List.append_nil]
      exact .pure
    · have hr : ¬ n-k ≤ 256 := by omega
      have hk' : n-(k+256) = n-k-256 := by omega
      have hrest := @ih (addMarks bm ([pointerAt p q] ++ pointersFrom
        (g.blockAt d.image (pointerAt p q)) 0 (min 256 (n-k)))) (q+1) (k+256) (by omega) hbm (by omega)
      rw [hk',addMarks_addMarks,List.append_assoc] at hrest
      rw [if_neg (mt of_decide_eq_true hend),if_neg hr,show 4*q+4 = 4*(q+1) by ring,
        show min n (k+256) = k+256 by omega]
      exact hrest.mono fun c hc => List.mem_cons_of_mem _ (List.mem_append_right _ hc)

/-- A file whose blocks, as far as they are marked, are in the file system. -/
def FileOk (g : Globals) (img : Buf) (inode : Inode) : Prop :=
  ∀ b ∈ fileMarks g img inode, b < g.superBlock.sBlocksCount

theorem getFileIndirectBlockBitmap_follows (hg : Geometry g) (hbs : g.blockSize = 1024)
    (hf : g.Fits d.image) {inode : Inode} (hbm : bm.size = g.superBlock.sBlocksCount+1)
    {n ind : ℕ} (hn : 12 < n) (hn' : n ≤ 268) (hind : inode.iBlock.getD ext2IndBlock 0 = ind)
    {l : List ℕ} (hl : l = inode.iBlock.take ext2NdirBlocks ++
      ind :: pointersFrom (g.blockAt d.image ind) 0 (n-12)) :
    Follows g d l (getFileIndirectBlockBitmap g bm inode n) (addMarks bm l) := by
  subst hl
  have hpp : pointersPerBlock g = 256 := by rw [pointersPerBlock,hbs]
  have hmin : min 256 (n-ext2IndBlock) = n-12 := by
    simp only [ext2IndBlock]
    omega
  unfold getFileIndirectBlockBitmap
  refine .bind ((Follows.of_cases (markAll_cases bm _) hbm).mono (by simp +contextual)) fun _ => ?_
  dsimp only
  rw [hind]
  have hbm₁ : (addMarks bm (inode.iBlock.take ext2NdirBlocks)).size = g.superBlock.sBlocksCount+1 := hbm
  refine .bind ((mark_follows hbm₁).mono (by simp)) fun hmark => ?_
  refine .bind ((block_follows hg hf (mark_le hbm₁ hmark)).mono (by simp)) fun _ => ?_
  have hptr := @markPointers_cases (g.blockAt d.image ind) n 256 0 ext2IndBlock
    (addMarks (addMarks bm (inode.iBlock.take ext2NdirBlocks)) [ind]) (by rw [blockAt_size,hbs]) hn
  rw [Nat.mul_zero,hmin,addMarks_addMarks,addMarks_addMarks,List.append_assoc,List.singleton_append]
    at hptr
  rw [hpp,addMarks_addMarks]
  refine .bind ((Follows.of_cases hptr hbm).mono (by simp +contextual)) fun _ => ?_
  exact .pure

theorem getFileDoubleIndirectBlockBitmap_follows (hg : Geometry g) (hbs : g.blockSize = 1024)
    (hf : g.Fits d.image) {inode : Inode} (hbm : bm.size = g.superBlock.sBlocksCount+1)
    {n ind dind : ℕ} (hn : 268 < n) (hind : inode.iBlock.getD ext2IndBlock 0 = ind)
    (hdind : inode.iBlock.getD ext2DindBlock 0 = dind) {l : List ℕ}
    (hl : l = inode.iBlock.take ext2NdirBlocks ++ ind :: (pointersFrom (g.blockAt d.image ind)
      0 256 ++ dind :: secondMarks g d.image (g.blockAt d.image dind) 256 0 (n-268))) :
    Follows g d l (getFileDoubleIndirectBlockBitmap g bm inode n) (addMarks bm l) := by
  subst hl
  have hpp : pointersPerBlock g = 256 := by rw [pointersPerBlock,hbs]
  unfold getFileDoubleIndirectBlockBitmap
  refine .bind ((Follows.of_cases (markAll_cases bm _) hbm).mono (by simp +contextual)) fun _ => ?_
  dsimp only
  rw [hind,hdind,hpp]
  have hbm₁ : (addMarks bm (inode.iBlock.take ext2NdirBlocks)).size = g.superBlock.sBlocksCount+1 := hbm
  refine .bind ((mark_follows hbm₁).mono (by simp)) fun hmark => ?_
  refine .bind ((block_follows hg hf (mark_le hbm₁ hmark)).mono (by simp)) fun _ => ?_
  have hptr := @markAllPointers_cases (g.blockAt d.image ind) 256 0
    (addMarks (addMarks bm (inode.iBlock.take ext2NdirBlocks)) [ind]) (by rw [blockAt_size,hbs])
  rw [Nat.mul_zero] at hptr
  refine .bind ((Follows.of_cases hptr hbm).mono (by simp +contextual)) fun _ => ?_
  have hbm₂ : (addMarks (addMarks (addMarks bm (inode.iBlock.take ext2NdirBlocks)) [ind])
      (pointersFrom (g.blockAt d.image ind) 0 256)).size = g.superBlock.sBlocksCount+1 := hbm
  refine .bind ((mark_follows hbm₂).mono (by simp)) fun hmark => ?_
  refine .bind ((block_follows hg hf (mark_le hbm₂ hmark)).mono (by simp)) fun _ => ?_
  have hsecond := @markSecondLevel_follows g d (addMarks (addMarks (addMarks (addMarks bm
      (inode.iBlock.take ext2NdirBlocks)) [ind]) (pointersFrom (g.blockAt d.image ind) 0 256)) [dind])
    hg hbs hf (g.blockAt d.image dind) n 256 0 268 (by rw [blockAt_size,hbs]) hbm hn
  have h268 : ext2NdirBlocks+256 = 268 := rfl
  rw [Nat.mul_zero] at hsecond
  rw [h268]
  have hmono := hsecond.mono (m := inode.iBlock.take ext2NdirBlocks ++ ind :: (pointersFrom
    (g.blockAt d.image ind) 0 256 ++ dind :: secondMarks g d.image (g.blockAt d.image dind) 256 0
      (n-268))) (by simp +contextual)
  simpa using hmono

theorem getFileBlockBitmap_run (hg : Geometry g) (hbs : g.blockSize = 1024) (hf : g.Fits d.image)
    {inode : Inode} (hbm : bm.size = g.superBlock.sBlocksCount+1) :
    (∃ d', (getFileBlockBitmap g bm inode).run d = .ok (addMarks bm (fileMarks g d.image inode)) d' ∧
      d'.image = d.image) ∨
    (¬ FileOk g d.image inode ∧ ∃ e d', (getFileBlockBitmap g bm inode).run d = .error e d') := by
  have key : ∀ {l : List ℕ} {x : Fsck Buf}, Follows g d l x (addMarks bm l) →
      (∃ d', x.run d = .ok (addMarks bm l) d' ∧ d'.image = d.image) ∨
      ((¬ ∀ b ∈ l, b < g.superBlock.sBlocksCount) ∧ ∃ e d', x.run d = .error e d') := by
    rintro l x (h | ⟨⟨b,hb,hle⟩,e,h⟩)
    · exact Or.inl ⟨d,h,rfl⟩
    · exact Or.inr ⟨fun hall => by have := hall b hb; omega,e,d,h⟩
  unfold FileOk getFileBlockBitmap fileMarks
  dsimp only
  by_cases h₁ : fileBlockNum g inode ≤ ext2NdirBlocks
  · rw [if_pos h₁,if_pos h₁]
    exact key (.of_cases (markAll_cases bm _) hbm)
  rw [if_neg h₁,if_neg h₁]
  simp only [ext2NdirBlocks] at h₁
  by_cases h₂ : fileBlockNum g inode ≤ indirectMaxBlock
  · rw [if_pos h₂,if_pos h₂]
    simp only [indirectMaxBlock] at h₂
    exact key (getFileIndirectBlockBitmap_follows hg hbs hf hbm (by omega) h₂ rfl rfl)
  rw [if_neg h₂,if_neg h₂]
  simp only [indirectMaxBlock] at h₂
  by_cases h₃ : fileBlockNum g inode ≤ doubleIndirectMaxBlock
  · rw [if_pos h₃,if_pos h₃]
    exact key (getFileDoubleIndirectBlockBitmap_follows hg hbs hf hbm (by omega) rfl rfl rfl)
  · rw [if_neg h₃,if_neg h₃,addMarks_nil]
    exact Or.inl ⟨_,rfl,rfl⟩

end FileRun

section Walk

variable (g : Globals) (img : Buf)

/-- What the walk descends into from an inode: every entry of a directory but the first two of its
first block. An inode that is neither a symbolic link nor a regular file is taken for a directory. -/
def Globals.walkKids (x : ℕ) : List ℕ :=
  if inodeIsLnk (g.inodeAt img x) || inodeIsReg (g.inodeAt img x) then []
  else (g.nonDot img x).map DirEntry.inode

/-- The blocks the walk marks for an inode. -/
def Globals.ownMarks (x : ℕ) : List ℕ :=
  if inodeIsLnk (g.inodeAt img x) then []
  else if inodeIsReg (g.inodeAt img x) then fileMarks g img (g.inodeAt img x)
  else g.dirBlocks img x

/-- An inode the walk can pass, up to the blocks of files. -/
structure WalkOk (x : ℕ) : Prop where
  num_pos : 1 ≤ x
  num_le : x ≤ g.superBlock.sInodesCount
  dir : inodeIsLnk (g.inodeAt img x) = false → inodeIsReg (g.inodeAt img x) = false → DirOk g img x

end Walk

theorem addMarks_accumulator (n : ℕ) : Accumulator addMarks fun c => c.size = n where
  nil := addMarks_nil
  append := addMarks_addMarks
  perm c l m h := by
    simp only [addMarks,h.mem_iff]
  ok _ _ hc := hc

theorem getTrueBlockBitmap_adds {g : Globals} (hg : Geometry g) (hbs : g.blockSize = 1024)
    {img : Buf} (hf : g.Fits img) {x : ℕ} {xs : List ℕ} (hu : Unfolds (g.walkKids img) [x] xs)
    (fails : Prop) :
    (∀ y ∈ xs, WalkOk g img y ∧ (inodeIsReg (g.inodeAt img y) = true → FileOk g img (g.inodeAt img y) ∨
      fails)) → ∀ fuel, xs.length ≤ fuel →
    Adds addMarks (fun c => c.size = g.superBlock.sBlocksCount+1) img fails
      (fun c => getTrueBlockBitmap g fuel c x) (xs.flatMap (g.ownMarks img)) := by
  have ha := addMarks_accumulator (g.superBlock.sBlocksCount+1)
  refine hu.tree_induction (P := fun x xs => (∀ y ∈ xs, WalkOk g img y ∧
      (inodeIsReg (g.inodeAt img y) = true → FileOk g img (g.inodeAt img y) ∨ fails)) →
    ∀ fuel, xs.length ≤ fuel →
    Adds addMarks (fun c => c.size = g.superBlock.sBlocksCount+1) img fails
      (fun c => getTrueBlockBitmap g fuel c x) (xs.flatMap (g.ownMarks img))) ?_
  intro x l hl ih hok fuel hfuel
  obtain ⟨fuel,rfl⟩ : ∃ n, fuel = n+1 := ⟨fuel-1,by simp only [List.length_cons] at hfuel; omega⟩
  have hfuel' : l.length ≤ fuel := by simpa using hfuel
  obtain ⟨hx,hfile⟩ := hok x (by simp)
  rw [List.flatMap_cons]
  intro c dev hc hd
  have hread := readInode_run hg (d := dev) (hd ▸ hf) hx.num_pos hx.num_le
  dsimp only
  rw [getTrueBlockBitmap,bind_ok hread,hd]
  by_cases hlnk : inodeIsLnk (g.inodeAt img x) = true
  · have hkids : g.walkKids img x = [] := by simp [Globals.walkKids,hlnk]
    rw [hkids] at hl
    obtain rfl := hl.nil_inv
    refine Or.inl ⟨dev,?_,hd⟩
    rw [if_pos hlnk,Globals.ownMarks,if_pos hlnk]
    simp
  by_cases hreg : inodeIsReg (g.inodeAt img x) = true
  · have hkids : g.walkKids img x = [] := by simp [Globals.walkKids,hreg]
    rw [hkids] at hl
    obtain rfl := hl.nil_inv
    rw [if_neg hlnk,if_pos hreg,Globals.ownMarks,if_neg hlnk,if_pos hreg]
    rcases getFileBlockBitmap_run hg hbs (d := dev) (hd ▸ hf) hc with ⟨d',hrun,him⟩ | ⟨hno,e,d',hrun⟩
    · rw [hd] at hrun
      exact Or.inl ⟨d',by rw [hrun]; simp,him.trans hd⟩
    · rw [hd] at hno
      exact Or.inr ⟨(hfile hreg).resolve_left hno,e,d',hrun⟩
  · have hdir := hx.dir (by simpa using hlnk) (by simpa using hreg)
    have hkids : g.walkKids img x = ((g.nonDot img x).filter fun _ => true).map DirEntry.inode := by
      simp [Globals.walkKids,hlnk,hreg]
    have hown : g.ownMarks img x = g.dirBlocks img x := by
      rw [Globals.ownMarks,if_neg hlnk,if_neg hreg]
    rw [hkids] at hl ih
    have hskip : Adds addMarks (fun c => c.size = g.superBlock.sBlocksCount+1) img fails pure [] :=
      .pure ha
    have h := adds_directory ha (hdir.reads hg hf) (g.walkKids img) (fun _ => true) (g.ownMarks img)
      (fun _ => []) (fun b => [b]) (fun b c => inBounds (mark c b))
      (fun i count _ entry c => if i ≠ 0 ∨ 2 ≤ count then getTrueBlockBitmap g fuel c entry.inode
        else pure c)
      (fun b hb c d hc hd => Or.inl ⟨d,by
        have := hdir.blocks_lt b hb
        dsimp only
        rw [(mark_cases c b).resolve_right (by omega)]
        rfl,hd⟩)
      (fun e _ i count _ hn => by
        have hcond : ¬ (i ≠ 0 ∨ 2 ≤ count) := fun h => hn ⟨h,rfl⟩
        simp only [if_neg hcond]
        exact hskip)
      (fun e _ i count _ hcond _ hk l' hl' hlen hmem => by
        simp only [if_pos hcond]
        exact ih e.inode l' hk hl' hlen hmem (fun y hy => hok y (by simp [hmem y hy])) fuel (by omega))
      hl
    have hadds := h c dev hc hd
    have hnil : (entriesBy (g.inodeAt img x) (g.blockAt img)).flatten.flatMap
        (fun _ => ([] : List ℕ)) = [] :=
      List.flatMap_eq_nil_iff.mpr fun _ _ => rfl
    rw [hnil,List.flatMap_singleton',List.append_nil] at hadds
    rw [if_neg hlnk,if_neg hreg,hown]
    exact hadds

section Map

variable (g : Globals) (img : Buf)

/-- The blocks an inode maps within its size: the blocks of its data, and the indirect, the
double-indirect and the second-level pointer blocks needed for them. -/
def Globals.Maps (inode : Inode) (b : ℕ) : Prop :=
  b ≠ 0 ∧ ((∃ k < g.sizeInBlocks inode, g.blockOf img inode k = b) ∨
    (12 < g.sizeInBlocks inode ∧ inode.iBlock.getD 12 0 = b) ∨
    (268 < g.sizeInBlocks inode ∧ inode.iBlock.getD 13 0 = b) ∨
    ∃ j, 268+256*j < g.sizeInBlocks inode ∧ g.indirect img (inode.iBlock.getD 13 0) j = b)

end Map

section MapMarks

variable {g : Globals} {img : Buf} {inode : Inode}

theorem indirect_ne_zero {p i b : ℕ} (hb : b ≠ 0) (h : g.indirect img p i = b) :
    p ≠ 0 ∧ pointerAt (g.blockAt img p) i = b := by
  rw [Globals.indirect] at h
  split at h
  · exact absurd h.symm hb
  · exact ⟨‹_›,h⟩

theorem mem_take_of_getD {l : List ℕ} {k n b : ℕ} (hb : b ≠ 0) (hk : k < n)
    (h : l.getD k 0 = b) : b ∈ l.take n := by
  have hlt : k < l.length := by
    by_contra hge
    rw [List.getD_eq_default _ _ (by omega)] at h
    exact hb h.symm
  rw [List.getD_eq_getElem _ _ hlt] at h
  rw [List.mem_take_iff_getElem]
  exact ⟨k,by omega,h⟩

theorem mem_secondMarks (p : Buf) {turns q r j : ℕ} (hj : j < turns) (hr : 256*j < r) :
    pointerAt p (q+j) ∈ secondMarks g img p turns q r ∧ ∀ i < 256, 256*j+i < r →
      pointerAt (g.blockAt img (pointerAt p (q+j))) i ∈ secondMarks g img p turns q r := by
  induction turns generalizing q r j with
  | zero => omega
  | succ turns ih =>
    rw [secondMarks]
    cases j with
    | zero =>
      refine ⟨by simp,fun i hi hir => ?_⟩
      have hmem : pointerAt (g.blockAt img (pointerAt p (q+0))) i ∈
          pointersFrom (g.blockAt img (pointerAt p q)) 0 (min 256 r) :=
        mem_pointersFrom.mpr ⟨i,by omega,by rw [Nat.zero_add,Nat.add_zero]⟩
      exact List.mem_cons_of_mem _ (List.mem_append_left _ hmem)
    | succ j =>
      have hbig : ¬ r ≤ 256 := by omega
      obtain ⟨h₁,h₂⟩ := ih (q := q+1) (r := r-256) (j := j) (by omega) (by omega)
      rw [show q+1+j = q+(j+1) by ring] at h₁ h₂
      rw [if_neg hbig]
      exact ⟨by simp [h₁],fun i hi hir => by simp [h₂ i hi (by omega)]⟩

theorem fileBlockNum_eq (hbs : g.blockSize = 1024) (h : g.sizeInBlocks inode ≤ 65804) :
    fileBlockNum g inode = g.sizeInBlocks inode := by
  rw [Globals.sizeInBlocks,hbs] at h
  have hsum : u32 (inode.iSize+g.blockSize+(2^32-1)) = inode.iSize+g.blockSize-1 := by
    rw [hbs]
    unfold u32
    omega
  rw [fileBlockNum,hsum,Globals.sizeInBlocks]

theorem mem_fileMarks (hbs : g.blockSize = 1024) (hn : g.sizeInBlocks inode ≤ 65549) {b : ℕ}
    (hb : g.Maps img inode b) : b ∈ fileMarks g img inode := by
  obtain ⟨hb0,hb⟩ := hb
  have hnum := fileBlockNum_eq hbs (show g.sizeInBlocks inode ≤ 65804 by omega)
  simp only [fileMarks,hnum,ext2NdirBlocks,indirectMaxBlock,doubleIndirectMaxBlock,ext2IndBlock,
    ext2DindBlock]
  by_cases h₁ : g.sizeInBlocks inode ≤ 12
  · rw [if_pos h₁]
    rcases hb with ⟨k,hk,h⟩ | ⟨h,_⟩ | ⟨h,_⟩ | ⟨j,h,_⟩
    · rw [Globals.blockOf,if_pos (by omega)] at h
      exact mem_take_of_getD hb0 hk h
    all_goals omega
  rw [if_neg h₁]
  by_cases h₂ : g.sizeInBlocks inode ≤ 268
  · rw [if_pos h₂]
    rcases hb with ⟨k,hk,h⟩ | ⟨_,rfl⟩ | ⟨h,_⟩ | ⟨j,h,_⟩
    · rw [Globals.blockOf] at h
      split at h
      · exact List.mem_append_left _ (mem_take_of_getD hb0 ‹_› h)
      · rw [if_pos (by omega)] at h
        have hmem : b ∈ pointersFrom (g.blockAt img (inode.iBlock.getD 12 0)) 0
            (g.sizeInBlocks inode-12) :=
          mem_pointersFrom.mpr ⟨k-12,by omega,by
            rw [Nat.zero_add]
            exact (indirect_ne_zero hb0 h).2⟩
        exact List.mem_append_right _ (List.mem_cons_of_mem _ hmem)
    · exact List.mem_append_right _ List.mem_cons_self
    all_goals omega
  · rw [if_neg h₂,if_pos hn]
    have hsecond : ∀ j, 268+256*j < g.sizeInBlocks inode → ∀ c,
        g.indirect img (inode.iBlock.getD 13 0) j = c → c ≠ 0 →
        c ∈ secondMarks g img (g.blockAt img (inode.iBlock.getD 13 0)) 256 0
          (g.sizeInBlocks inode-268) ∧
        ∀ i < 256, 268+256*j+i < g.sizeInBlocks inode → pointerAt (g.blockAt img c) i ∈
          secondMarks g img (g.blockAt img (inode.iBlock.getD 13 0)) 256 0
            (g.sizeInBlocks inode-268) := by
      intro j hj c hc hc0
      have hj' : j < 256 := by omega
      have hr : 256*j < g.sizeInBlocks inode-268 := by omega
      obtain ⟨h₃,h₄⟩ := mem_secondMarks (g := g) (q := 0) (g.blockAt img (inode.iBlock.getD 13 0))
        hj' hr
      rw [Nat.zero_add,(indirect_ne_zero hc0 hc).2] at h₃ h₄
      exact ⟨h₃,fun i hi hle => h₄ i hi (by omega)⟩
    have inSecond : ∀ {c}, c ∈ secondMarks g img (g.blockAt img (inode.iBlock.getD 13 0)) 256 0
        (g.sizeInBlocks inode-268) → c ∈ inode.iBlock.take 12 ++ inode.iBlock.getD 12 0 ::
          (pointersFrom (g.blockAt img (inode.iBlock.getD 12 0)) 0 256 ++ inode.iBlock.getD 13 0 ::
            secondMarks g img (g.blockAt img (inode.iBlock.getD 13 0)) 256 0
              (g.sizeInBlocks inode-268)) := fun hc => List.mem_append_right _
      (List.mem_cons_of_mem _ (List.mem_append_right _ (List.mem_cons_of_mem _ hc)))
    rcases hb with ⟨k,hk,h⟩ | ⟨_,rfl⟩ | ⟨_,rfl⟩ | ⟨j,hj,h⟩
    · rw [Globals.blockOf] at h
      split at h
      · exact List.mem_append_left _ (mem_take_of_getD hb0 ‹_› h)
      · split at h
        · have hmem : b ∈ pointersFrom (g.blockAt img (inode.iBlock.getD 12 0)) 0 256 :=
            mem_pointersFrom.mpr ⟨k-12,by omega,by
              rw [Nat.zero_add]
              exact (indirect_ne_zero hb0 h).2⟩
          exact List.mem_append_right _ (List.mem_cons_of_mem _ (List.mem_append_left _ hmem))
        · obtain ⟨hp,hptr⟩ := indirect_ne_zero hb0 h
          have hmem := (hsecond ((k-268)/256) (by omega) _ rfl hp).2 ((k-268)%256) (by omega) (by omega)
          rw [hptr] at hmem
          exact inSecond hmem
    · exact List.mem_append_right _ List.mem_cons_self
    · exact List.mem_append_right _ (List.mem_cons_of_mem _ (List.mem_append_right _
        List.mem_cons_self))
    · exact inSecond (hsecond j hj b h hb0).1

theorem maps_direct (h₁ : inode.iBlock.getD 12 0 = 0) (h₂ : inode.iBlock.getD 13 0 = 0) {b : ℕ}
    (hb : g.Maps img inode b) : b ∈ inode.iBlock.take 12 := by
  obtain ⟨hb0,⟨k,_,h⟩ | ⟨_,h⟩ | ⟨_,h⟩ | ⟨j,_,h⟩⟩ := hb
  · rw [Globals.blockOf] at h
    split at h
    · exact mem_take_of_getD hb0 ‹_› h
    · split at h
      · exact absurd h₁ (indirect_ne_zero hb0 h).1
      · exact absurd h₂ (indirect_ne_zero (indirect_ne_zero hb0 h).1 rfl).1
  · exact absurd (h₁.symm.trans h).symm hb0
  · exact absurd (h₂.symm.trans h).symm hb0
  · exact absurd h₂ (indirect_ne_zero hb0 h).1

theorem mem_takeWhile_of_getD {l : List ℕ} {k : ℕ} (h : ∀ j ≤ k, l.getD j 0 ≠ 0) :
    l.getD k 0 ∈ l.takeWhile (· ≠ 0) := by
  induction l generalizing k with
  | nil => exact absurd rfl (h 0 (by omega))
  | cons a l ih =>
    have ha : a ≠ 0 := h 0 (by omega)
    rw [List.takeWhile_cons_of_pos (by simpa using ha)]
    cases k with
    | zero => simp
    | succ k => exact List.mem_cons_of_mem _ (ih fun j hj => h (j+1) (by omega))

end MapMarks

section Bits

variable (g : Globals) (img : Buf)

/-- The block whose number is the place of the bit of block `b` in the flat array: `b` itself when
the groups are full, or when there is only one. -/
def Globals.flatPos (b : ℕ) : ℕ :=
  (b-1)/g.superBlock.sBlocksPerGroup*8192 + (b-1)%g.superBlock.sBlocksPerGroup+1

/-- `pass4` leaves the bit of block `b` at 1: it takes it for the bit of an inode table or of a marked
block, or it does not look at it. -/
def Globals.KeepsBit (b : ℕ) : Prop :=
  g.tableBlock (g.flatPos b) ∨
  (g.dataBlock (g.flatPos b) ∧
    ∃ y, Reach (g.walkKids img) rootInodeNum y ∧ g.flatPos b ∈ g.ownMarks img y) ∨
  (¬ g.dataBlock (g.flatPos b) ∧ g.diskBit img b = true)

/-- The inode is a regular file or a directory that the walk comes to. -/
def Globals.InUse (x : ℕ) : Prop :=
  Reach (g.walkKids img) rootInodeNum x ∧
    (inodeIsReg (g.inodeAt img x) = true ∨ inodeIsDir (g.inodeAt img x) = true)

/-- A file system whose blocks can be walked: no cycle, directories of at most twelve blocks without
holes, files without triple-indirect block, and all their blocks behind the metadata. -/
structure BlocksOk : Prop where
  acyclic : Acyclic (g.walkKids img) rootInodeNum
  walk : ∀ x, Reach (g.walkKids img) rootInodeNum x → WalkOk g img x
  size_le : ∀ x, g.InUse img x → g.sizeInBlocks (g.inodeAt img x) ≤ 65804
  dir_full : ∀ x, g.InUse img x → inodeIsDir (g.inodeAt img x) = true →
    ∀ k < g.sizeInBlocks (g.inodeAt img x), k < 12 ∧ (g.inodeAt img x).iBlock.getD k 0 ≠ 0
  data : ∀ x, g.InUse img x → ∀ b, g.Maps img (g.inodeAt img x) b → g.dataBlock b

/-- The inode is a regular file or a directory, and the root or named in the tree. -/
def Globals.Reachable (x : ℕ) : Prop := g.InUseBy img x ∧
  (inodeIsReg (g.inodeAt img x) = true ∨ inodeIsDir (g.inodeAt img x) = true)

/-- A file system whose blocks can be walked, and whose reachable files and directories are as in
`BlocksOk`, whether the walk comes to them or not. -/
structure ReachableOk : Prop where
  acyclic : Acyclic (g.walkKids img) rootInodeNum
  walk : ∀ x, Reach (g.walkKids img) rootInodeNum x → WalkOk g img x
  size_le : ∀ x, g.Reachable img x → g.sizeInBlocks (g.inodeAt img x) ≤ 65804
  dir_full : ∀ x, g.Reachable img x → inodeIsDir (g.inodeAt img x) = true →
    ∀ k < g.sizeInBlocks (g.inodeAt img x), k < 12 ∧ (g.inodeAt img x).iBlock.getD k 0 ≠ 0
  data : ∀ x, g.Reachable img x → ∀ b, g.Maps img (g.inodeAt img x) b → g.dataBlock b

/-- The walk passes the inode by, or it is a file too large for the program, or the bit of the block is
not where the program looks for it. -/
def Globals.Missed (x b : ℕ) : Prop := ¬ Reach (g.walkKids img) rootInodeNum x ∨
  65549 < g.sizeInBlocks (g.inodeAt img x) ∨ g.flatPos b ≠ b

end Bits

section Bits

variable {g : Globals} {img : Buf}

theorem dir_not_lnk_reg {inode : Inode} (h : inodeIsDir inode = true) :
    inodeIsLnk inode = false ∧ inodeIsReg inode = false := by
  simp only [inodeIsDir,inodeIsLnk,inodeIsReg,beq_iff_eq] at h ⊢
  rw [h]
  decide

theorem reg_not_lnk {inode : Inode} (h : inodeIsReg inode = true) : inodeIsLnk inode = false := by
  simp only [inodeIsLnk,inodeIsReg,beq_iff_eq] at h ⊢
  rw [h]
  decide

theorem ReachableOk.mem_ownMarks (hbs : g.blockSize = 1024) (h : ReachableOk g img) {x b : ℕ}
    (hx : g.Reachable img x) (hlim : g.sizeInBlocks (g.inodeAt img x) ≤ 65549)
    (hb : g.Maps img (g.inodeAt img x) b) : b ∈ g.ownMarks img x := by
  rw [Globals.ownMarks]
  rcases hx.2 with hreg | hdir
  · rw [if_neg (by simp [reg_not_lnk hreg]),if_pos hreg]
    exact mem_fileMarks hbs hlim hb
  · obtain ⟨hnl,hnr⟩ := dir_not_lnk_reg hdir
    have hfull := h.dir_full x hx hdir
    have hle : g.sizeInBlocks (g.inodeAt img x) ≤ 12 := by
      by_contra hgt
      have := (hfull 12 (by omega)).1
      omega
    rw [if_neg (by simp [hnl]),if_neg (by simp [hnr])]
    rcases hb.2 with ⟨k,hk,rfl⟩ | ⟨hgt,_⟩ | ⟨hgt,_⟩ | ⟨j,hgt,_⟩
    · rw [Globals.blockOf,if_pos (by omega)]
      exact mem_takeWhile_of_getD fun j hj => (hfull j (by omega)).2
    all_goals omega

theorem BlocksOk.unfolds (h : BlocksOk g img) :
    ∃ xs, Unfolds (g.walkKids img) [rootInodeNum] xs :=
  h.acyclic.unfolds ((Set.finite_Icc 1 g.superBlock.sInodesCount).subset fun y hy =>
    ⟨(h.walk y hy).num_pos,(h.walk y hy).num_le⟩)

theorem diskBit_storeBitmap_flat (hl : GroupLayout g) {b : ℕ} (h1 : 1 ≤ b)
    (hb : b < g.superBlock.sBlocksCount) {bm : Buf} :
    g.diskBit (g.storeBitmap bm img g.blockGroups) b = bitAt bm (g.flatPos b) := by
  have hle := hl.per_group_le
  have hmod := Nat.mod_lt (b-1) hl.per_group_pos
  rw [Globals.diskBit,blockAt_storeBitmap hl le_rfl (hl.group_lt h1 hb)]
  unfold bitAt
  rw [hl.block_size,Nat.add_sub_cancel,Buf.slice_byte _ (by omega),Globals.flatPos]
  generalize (b-1)/g.superBlock.sBlocksPerGroup = q at *
  generalize (b-1)%g.superBlock.sBlocksPerGroup = r at *
  have h₁ : q*1024+r/8 = (q*8192+r+1-1)/8 := by omega
  have h₂ : r%8 = (q*8192+r+1-1)%8 := by omega
  rw [h₁,h₂]

theorem marked_addMarks {n b : ℕ} {l : List ℕ} (hb : b < n) :
    marked (addMarks (Buf.zero n) l) b = decide (b ∈ l) := by
  unfold marked
  rw [addMarks_byte l (by simpa using hb)]
  by_cases hl : b ∈ l
  · simp [hl]
  · rw [if_neg hl,Buf.zero_byte]
    simp [hl]

end Bits

/-- A file of 65550 blocks all of which are holes but the first. -/
def largeImage : Buf := exampleImage 16 [
  inodePiece 2 (inodeBytes 0x41ED 1024 2 [7]),
  inodePiece 11 (inodeBytes 0x81A4 (65550*1024) 1 [8]),
  blockPiece 7 0 (entryBytes 2 12 2 [46]),
  blockPiece 7 12 (entryBytes 2 12 2 [46,46]),
  blockPiece 7 24 (entryBytes 11 1000 1 [97]),
  blockPiece 3 0 [255]]

theorem large_layout : GroupLayout (exampleGlobals 16) ∧ (exampleGlobals 16).Fits largeImage := by decide

theorem large_unfolds :
    Unfolds ((exampleGlobals 16).walkKids largeImage) [rootInodeNum] [2,11] :=
  unfolds_of_unfoldFrom (n := 2) (by decide +kernel)

theorem large_walked {x : ℕ} (h : Reach ((exampleGlobals 16).walkKids largeImage) rootInodeNum x) :
    x = 2 ∨ x = 11 := by simpa using large_unfolds.mem_iff.mpr h

theorem large_tree :
    Unfolds ((exampleGlobals 16).dirsBelow largeImage) [rootInodeNum] [2] :=
  unfolds_of_unfoldFrom (n := 2) (by decide +kernel)

theorem large_reachable {x : ℕ} (h : (exampleGlobals 16).Reachable largeImage x) : x = 2 ∨ x = 11 := by
  rcases h.1 with rfl | ⟨y,hy,hk⟩
  · exact Or.inl rfl
  · obtain rfl : y = 2 := by simpa using large_tree.mem_iff.mpr hy
    rw [show ((exampleGlobals 16).children largeImage 2).map DirEntry.inode = [11] by decide +kernel] at hk
    exact Or.inr (by simpa using hk)

theorem large_reachableOk : ReachableOk (exampleGlobals 16) largeImage where
  acyclic := large_unfolds.acyclic
  walk x hx := by
    rcases large_walked hx with rfl | rfl
    · exact ⟨by decide,by decide,fun _ _ => (liveDir_of_check (by decide +kernel)).ok⟩
    · have hreg : inodeIsReg ((exampleGlobals 16).inodeAt largeImage 11) = true := by decide +kernel
      exact ⟨by decide,by decide,fun _ h => absurd (hreg.symm.trans h) (by decide)⟩
  size_le x hx := by
    rcases large_reachable hx with rfl | rfl <;> decide +kernel
  dir_full x hx hdir := by
    rcases large_reachable hx with rfl | rfl
    · decide +kernel
    · have hno : inodeIsDir ((exampleGlobals 16).inodeAt largeImage 11) = false := by decide +kernel
      exact absurd (hno.symm.trans hdir) (by decide)
  data x hx b hb := by
    have hall : ∀ y ∈ [2,11], ∀ b ∈ ((exampleGlobals 16).inodeAt largeImage y).iBlock.take 12,
        b ≠ 0 → (exampleGlobals 16).dataBlock b := by decide +kernel
    rcases large_reachable hx with rfl | rfl <;>
      exact hall _ (by decide) b (maps_direct (by decide +kernel) (by decide +kernel) hb) hb.1

end MyFsck
