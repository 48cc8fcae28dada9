import MyFsck.Correct

/-! What the reading functions leave alone, and the scanning loops as rules for triples. -/
namespace MyFsck

open ByteBuffer ErrorState

theorem inBounds_readOnly {α : Type} (o : Option α) : ReadOnly (inBounds o) := by
  cases o with
  | none => exact .throw _
  | some a => exact .pure a

theorem inBounds_triple {α : Type} {o : Option α} {P E : Device → Prop} {Q : α → Device → Prop}
    (h : ∀ a, o = some a → ∀ d, P d → Q a d) (hE : ∀ d, P d → E d) : Triple P (inBounds o) Q E := by
  cases o with
  | none => exact .throw hE
  | some a => exact .pure (h a rfl)

theorem readSectors_readOnly (start_sector num_sectors : ℕ) :
    ReadOnly (readSectors start_sector num_sectors) := by
  intro d
  unfold readSectors
  rw [bind_ok (EStateM.run_get d)]
  cases d.image.window (start_sector*sectorSizeBytes) (sectorSizeBytes*num_sectors) with
  | none => exact Or.inr ⟨_,rfl⟩
  | some b => exact Or.inl ⟨b,rfl⟩

section Globals

variable (g : Globals)

theorem block_readOnly (b : ℕ) : ReadOnly (g.block b) := readSectors_readOnly _ _

theorem readGroupDesc_readOnly (id : ℕ) : ReadOnly (readGroupDesc g id) := inBounds_readOnly _

theorem readBlocks_readOnly (start n size : ℕ) : ReadOnly (g.readBlocks start n size) :=
  .foldlM _ (fun _ _ => (block_readOnly g _).bind fun _ => inBounds_readOnly _) _

theorem checkDivisor_readOnly (n : ℕ) : ReadOnly (checkDivisor n) := by
  unfold checkDivisor
  split
  · exact .throw _
  · exact .pure _

theorem readInode_readOnly (i : ℕ) : ReadOnly (g.readInode i) :=
  (checkDivisor_readOnly _).bind fun _ => (readGroupDesc_readOnly g _).bind fun _ =>
    (readBlocks_readOnly g _ _ _).bind fun _ => inBounds_readOnly _

theorem getInodeBitmapInPartition_readOnly : ReadOnly g.getInodeBitmapInPartition :=
  .foldlM _ (fun _ _ => ((readGroupDesc_readOnly g _).bind fun _ => readBlocks_readOnly g _ _ _).bind
    fun _ => inBounds_readOnly _) _

theorem getBlockBitmapInPartition_readOnly : ReadOnly g.getBlockBitmapInPartition :=
  .foldlM _ (fun _ _ => ((readGroupDesc_readOnly g _).bind fun _ => readBlocks_readOnly g _ _ _).bind
    fun _ => inBounds_readOnly _) _

end Globals

section Loops

variable {σ : Type} {I : σ → Device → Prop} {E : Device → Prop}

theorem forBlocks_triple {body : ℕ → ℕ → σ → Fsck σ}
    (h : ∀ i b s, Triple (I s) (body i b s) I E) (i : ℕ) (bs : List ℕ) (s : σ) :
    Triple (I s) (forBlocks body i bs s) I E := by
  induction bs generalizing i s with
  | nil => exact .pure fun _ hd => hd
  | cons b bs ih =>
    rw [forBlocks]
    refine .ite (fun _ => .pure fun _ hd => hd) fun _ => ?_
    exact (h i b s).bind fun s' => ih (i+1) s'

theorem scanEntries_triple {block_size : ℕ} {blk : σ → Buf} {body : ℕ → ℕ → DirEntry → σ → Fsck σ}
    (h : ∀ count off e s, Triple (I s) (body count off e s) I E) (hE : ∀ s d, I s d → E d)
    (turns off count : ℕ) (s : σ) :
    Triple (I s) (scanEntries block_size blk body turns off count s) I E := by
  induction turns generalizing off count s with
  | zero =>
    rw [scanEntries]
    exact .ite (fun _ => .throw (hE s)) fun _ => .pure fun _ hd => hd
  | succ turns ih =>
    rw [scanEntries]
    refine .ite (fun _ => ?_) fun _ => .pure fun _ hd => hd
    refine ((inBounds_readOnly _).triple (hE s)).bind fun r => ?_
    cases r with
    | none => exact .pure fun _ hd => hd
    | some e => exact (h count off e s).bind fun s' => ih (off+e.recLen) (count+1) s'

theorem forBlocks_readOnly {body : ℕ → ℕ → σ → Fsck σ} (h : ∀ i b s, ReadOnly (body i b s)) (i : ℕ)
    (bs : List ℕ) (s : σ) : ReadOnly (forBlocks body i bs s) := by
  induction bs generalizing i s with
  | nil => exact .pure s
  | cons b bs ih =>
    rw [forBlocks]
    split
    · exact .pure s
    · exact (h i b s).bind fun s' => ih (i+1) s'

theorem scanEntries_readOnly {block_size : ℕ} {blk : σ → Buf}
    {body : ℕ → ℕ → DirEntry → σ → Fsck σ} (h : ∀ count off e s, ReadOnly (body count off e s))
    (turns off count : ℕ) (s : σ) : ReadOnly (scanEntries block_size blk body turns off count s) := by
  induction turns generalizing off count s with
  | zero =>
    rw [scanEntries]
    split
    · exact .throw _
    · exact .pure s
  | succ turns ih =>
    rw [scanEntries]
    split
    · refine (inBounds_readOnly _).bind fun r => ?_
      cases r with
      | none => exact .pure s
      | some e => exact (h count off e s).bind fun s' => ih (off+e.recLen) (count+1) s'
    · exact .pure s

end Loops

theorem directoryTraversor_readOnly (g : Globals) (fuel : ℕ) (counts : Buf) (x : ℕ) :
    ReadOnly (directoryTraversor g fuel counts x) := by
  induction fuel generalizing counts x with
  | zero => exact .throw _
  | succ fuel ih =>
    rw [directoryTraversor]
    refine (readInode_readOnly g x).bind fun inode => forBlocks_readOnly (fun i b s => ?_) _ _ _
    refine (block_readOnly g b).bind fun blk => scanEntries_readOnly (fun count _ e s => ?_) _ _ _ _
    refine (inBounds_readOnly _).bind fun s' => ?_
    split
    · split
      · exact ih _ _
      · exact .pure _
    · exact .pure _

theorem findName_readOnly (block_size : ℕ) (dir_block : Buf) (name : List Byte) (turns off : ℕ) :
    ReadOnly (findName block_size dir_block name turns off) := by
  induction turns generalizing off with
  | zero =>
    rw [findName]
    split
    · exact .throw _
    · exact .pure _
  | succ turns ih =>
    rw [findName]
    split
    · refine (inBounds_readOnly _).bind fun r => ?_
      cases r with
      | none => exact .pure _
      | some e =>
        dsimp only
        split
        · exact .pure _
        · exact ih _
    · exact .pure _

theorem searchDirEntry_readOnly (g : Globals) (inode : Inode) (name : List Byte) :
    ReadOnly (searchDirEntry g inode name) := by
  unfold searchDirEntry
  split
  · exact .throw _
  · split
    · exact .throw _
    · exact (block_readOnly g _).bind fun _ => findName_readOnly _ _ _ _ _

theorem findLastEntry_readOnly (block_size : ℕ) (dir_block : Buf) (turns off : ℕ) (len : ℤ)
    (entry : Option DirEntry) : ReadOnly (findLastEntry block_size dir_block turns off len entry) := by
  induction turns generalizing off len entry with
  | zero =>
    rw [findLastEntry]
    split
    · exact .throw _
    · exact .pure _
  | succ turns ih =>
    rw [findLastEntry]
    split
    · refine (inBounds_readOnly _).bind fun r => ?_
      cases r with
      | none => exact .pure _
      | some e => exact ih _ _ _
    · exact .pure _

theorem createNewEntry_readOnly (g : Globals) (i : ℕ) : ReadOnly (createNewEntry g i) :=
  (readInode_readOnly g i).bind fun _ => .pure _

section Log

variable {g : Globals} {log : List Event}

/-- `x` only adds to the log. -/
def KeepsLog {α : Type} (x : Fsck α) : Prop :=
  ∀ log : List Event, Triple (fun d => log <+: d.out) x (fun _ d => log <+: d.out) fun d => log <+: d.out

namespace KeepsLog

variable {α β : Type} {x : Fsck α} {f : α → Fsck β}

theorem of_readOnly (h : ReadOnly x) : KeepsLog x := fun _ => h.triple fun _ hd => hd

theorem bind (hx : KeepsLog x) (hf : ∀ a, KeepsLog (f a)) : KeepsLog (x >>= f) := fun log =>
  (hx log).bind fun a => hf a log

theorem print (e : Event) : KeepsLog (print e) := by
  intro log d hd
  rw [print_run]
  exact hd.trans (List.prefix_append _ _)

theorem write (g : Globals) (b : ℕ) (src : Buf) (pos : ℕ) : KeepsLog (g.write b src pos) := by
  refine (print _).bind fun _ => (of_readOnly (inBounds_readOnly _)).bind fun bytes =>
    (print _).bind fun _ => ?_
  intro log d hd
  rw [EStateM.run_modify]
  exact hd

theorem foldlM {β γ : Type} {f : β → γ → Fsck β} (h : ∀ b a, KeepsLog (f b a)) (l : List γ) (b : β) :
    KeepsLog (l.foldlM f b) := fun log => .foldlM l (fun b a _ => h b a log) b

theorem endState {x : Fsck α} (h : KeepsLog x) {log : List Event} {d : Device} (hd : log <+: d.out) :
    log <+: (ErrorState.endState x d).out := (h log).endState hd

end KeepsLog

theorem endState_bind_log {α β : Type} {x : Fsck α} {f : α → Fsck β} (hf : ∀ a, KeepsLog (f a))
    {log : List Event} {d : Device} (h : log <+: (endState x d).out) :
    log <+: (endState (x >>= f) d).out := by
  cases hx : x.run d with
  | ok a d' =>
    rw [endState_bind hx]
    rw [endState_ok hx] at h
    exact (hf a).endState h
  | error e d' =>
    rw [endState_error hx] at h
    rw [endState_error (bind_error hx)]
    exact h

theorem scanEntries_keepsLog {σ : Type} {n : ℕ} {blk : σ → Buf} {body : ℕ → ℕ → DirEntry → σ → Fsck σ}
    (h : ∀ count off e s, KeepsLog (body count off e s)) (turns off count : ℕ) (s : σ) :
    KeepsLog (scanEntries n blk body turns off count s) := fun log =>
  scanEntries_triple (I := fun _ d => log <+: d.out) (fun count off e s => h count off e s log)
    (fun _ _ h => h) _ _ _ _

theorem forBlocks_keepsLog {σ : Type} {body : ℕ → ℕ → σ → Fsck σ} (h : ∀ i b s, KeepsLog (body i b s))
    (i : ℕ) (bs : List ℕ) (s : σ) : KeepsLog (forBlocks body i bs s) := fun log =>
  forBlocks_triple (I := fun _ d => log <+: d.out) (fun i b s => h i b s log) _ _ _

/-- Whatever the program prints and writes, `I` stays true. -/
structure Lasting (g : Globals) (I : Device → Prop) : Prop where
  print : ∀ e, Triple I (print e) (fun _ => I) I
  write : ∀ b src pos, Triple I (g.write b src pos) (fun _ => I) I

theorem lasting_log (g : Globals) (log : List Event) : Lasting g fun d => log <+: d.out where
  print e := KeepsLog.print e log
  write b src pos := KeepsLog.write g b src pos log

section Lasting

variable {I : Device → Prop}

theorem placeEntry_keeps (hI : Lasting g I) (new_entry : DirEntry) (blocks : List ℕ)
    (entry : Option DirEntry) : Triple I (placeEntry g new_entry blocks entry) (fun _ => I) I := by
  induction blocks generalizing entry with
  | nil => exact (ReadOnly.pure _).keeps
  | cons b blocks ih =>
    rw [placeEntry]
    refine .ite (fun _ => (ReadOnly.pure _).keeps) fun _ => ?_
    refine (block_readOnly g b).keeps.bind fun blk => ?_
    refine (findLastEntry_readOnly _ _ _ _ _ _).keeps.bind fun r => ?_
    obtain ⟨off,len,entry'⟩ := r
    dsimp only
    cases entry' with
    | none => exact (ReadOnly.throw _).keeps
    | some e =>
      refine .ite (fun _ => ?_) fun _ => ih _
      refine (inBounds_readOnly _).keeps.bind fun _ => ?_
      unfold writeNewEntry
      refine (inBounds_readOnly _).keeps.bind fun _ => ?_
      refine (inBounds_readOnly _).keeps.bind fun _ => ?_
      refine (inBounds_readOnly _).keeps.bind fun _ => ?_
      refine (inBounds_readOnly _).keeps.bind fun _ => ?_
      refine (inBounds_readOnly _).keeps.bind fun _ => ?_
      exact hI.write _ _ _

theorem addToLostFound_keeps (hI : Lasting g I) (i : ℕ) :
    Triple I (addToLostFound g i) (fun _ => I) I := by
  unfold addToLostFound
  refine (readInode_readOnly g _).keeps.bind fun root => ?_
  refine (searchDirEntry_readOnly g _ _).keeps.bind fun found => ?_
  cases found with
  | none => exact (hI.print _).bind fun _ => (ReadOnly.pure _).keeps
  | some e =>
    refine (readInode_readOnly g _).keeps.bind fun lost => ?_
    refine (createNewEntry_readOnly g _).keeps.bind fun new => ?_
    refine (placeEntry_keeps hI _ _ _).bind fun _ => ?_
    refine (readInode_readOnly g _).keeps.bind fun inode => ?_
    refine (block_readOnly g _).keeps.bind fun blk => ?_
    refine (inBounds_readOnly _).keeps.bind fun src => ?_
    exact (hI.write _ _ _).bind fun _ => (ReadOnly.pure _).keeps

theorem takeIn_keeps (hI : Lasting g I) (fuel : ℕ) (counts : Buf) (i : ℕ) (dir : Bool) :
    Triple I ((if dir then directoryTraversor g fuel counts i else pure counts) >>= fun counts =>
      addToLostFound g i >>= fun _ => pure counts) (fun _ => I) I := by
  refine Triple.bind (.ite (fun _ => ?_) fun _ => (ReadOnly.pure _).keeps) fun _ =>
    (addToLostFound_keeps hI i).bind fun _ => (ReadOnly.pure _).keeps
  exact (directoryTraversor_readOnly g _ _ _).keeps

theorem pass2Step_keeps (hI : Lasting g I) (fuel : ℕ) (bitmap counts : Buf) (i : ℕ) :
    Triple I (pass2Step g fuel bitmap counts i) (fun _ => I) I := by
  unfold pass2Step
  refine (readInode_readOnly g i).keeps.bind fun inode => ?_
  refine .ite (fun _ => (ReadOnly.pure _).keeps) fun _ => ?_
  refine (inBounds_readOnly _).keeps.bind fun bit => ?_
  refine .ite (fun _ => ?_) fun _ => (ReadOnly.pure _).keeps
  refine (inBounds_readOnly _).keeps.bind fun c => ?_
  refine .ite (fun _ => ?_) fun _ => (ReadOnly.pure _).keeps
  refine (hI.print _).bind fun _ => ?_
  have h := takeIn_keeps hI fuel counts i (inodeIsDir inode)
  cases hd : inodeIsDir inode <;> rw [hd] at h <;> exact h

theorem pass2_keeps (hI : Lasting g I) (fuel : ℕ) : Triple I (pass2 g fuel) (fun _ => I) I :=
  (directoryTraversor_readOnly g _ _ _).keeps.bind fun _ =>
    (getInodeBitmapInPartition_readOnly g).keeps.bind fun _ =>
      (Triple.foldlM _ (fun _ _ _ => pass2Step_keeps hI _ _ _ _) _).bind fun _ => (ReadOnly.pure _).keeps

theorem pass3Step_keeps (hI : Lasting g I) (counts : Buf) (i : ℕ) :
    Triple I (pass3Step g counts i) (fun _ => I) I := by
  refine (readInode_readOnly g i).keeps.bind fun inode => (inBounds_readOnly _).keeps.bind fun c => ?_
  refine .ite (fun _ => (hI.print _).bind fun _ => ?_) fun _ => (ReadOnly.pure _).keeps
  refine (checkDivisor_readOnly _).keeps.bind fun _ => (readGroupDesc_readOnly g _).keeps.bind fun _ =>
    (readBlocks_readOnly g _ _ _).keeps.bind fun _ => (inBounds_readOnly _).keeps.bind fun _ => hI.write _ _ _

theorem pass3_keeps (hI : Lasting g I) (fuel : ℕ) : Triple I (pass3 g fuel) (fun _ => I) I :=
  (directoryTraversor_readOnly g _ _ _).keeps.bind fun _ =>
    .foldlM _ (fun _ _ _ => pass3Step_keeps hI _ _) ()

end Lasting

theorem takeIn_keepsLog (fuel : ℕ) (counts : Buf) (i : ℕ) (dir : Bool) :
    KeepsLog ((if dir then directoryTraversor g fuel counts i else pure counts) >>= fun counts =>
      addToLostFound g i >>= fun _ => pure counts) := fun log =>
  takeIn_keeps (lasting_log g log) fuel counts i dir

theorem pass2Step_keepsLog (fuel : ℕ) (bitmap counts : Buf) (i : ℕ) :
    KeepsLog (pass2Step g fuel bitmap counts i) := fun log =>
  pass2Step_keeps (lasting_log g log) fuel bitmap counts i

end Log

/-- A marking array of `n` bytes, each 0 or 1. -/
structure Marks (n : ℕ) (bm : Buf) : Prop where
  size_eq : bm.size = n
  zero_or_one : ∀ i, bm.byte i = 0 ∨ bm.byte i = 1

theorem Marks.calloc (n : ℕ) : Marks (u32 n) (calloc n) := ⟨rfl,fun _ => Or.inl (Buf.zero_byte _ _)⟩

section Marks

variable {n : ℕ} {bm bm' : Buf}

theorem Marks.mark (h : Marks n bm) {b : ℕ} (hb : mark bm b = some bm') : Marks n bm' := by
  unfold MyFsck.mark Buf.store at hb
  split at hb
  · obtain rfl := Option.some.inj hb
    refine ⟨h.size_eq,fun i => ?_⟩
    rw [Buf.set_byte]
    split
    · exact Or.inr rfl
    · exact h.zero_or_one i
  · cases hb

theorem Marks.markAll {l : List ℕ} (h : Marks n bm) (hb : markAll bm l = some bm') :
    Marks n bm' := by
  induction l generalizing bm with
  | nil =>
    obtain rfl := Option.some.inj hb
    exact h
  | cons b l ih =>
    simp only [MyFsck.markAll,List.foldlM_cons,Option.bind_eq_bind,Option.bind_eq_some_iff] at hb
    obtain ⟨bm₁,h₁,h₂⟩ := hb
    exact ih (h.mark h₁) h₂

theorem Marks.markPointers {p : Buf} {file_block_num turns i k : ℕ} {r : Buf × ℕ × Bool}
    (h : Marks n bm) (hb : markPointers p file_block_num turns i k bm = some r) : Marks n r.1 := by
  induction turns generalizing i k bm with
  | zero =>
    obtain rfl := Option.some.inj hb
    exact h
  | succ turns ih =>
    simp only [MyFsck.markPointers,Option.bind_eq_bind,Option.bind_eq_some_iff] at hb
    obtain ⟨_,_,bm₁,h₁,h₂⟩ := hb
    split at h₂
    · obtain rfl := Option.some.inj h₂
      exact h.mark h₁
    · exact ih (h.mark h₁) h₂

theorem Marks.markAllPointers {p : Buf} {turns i : ℕ} (h : Marks n bm)
    (hb : markAllPointers p turns i bm = some bm') : Marks n bm' := by
  induction turns generalizing i bm with
  | zero =>
    obtain rfl := Option.some.inj hb
    exact h
  | succ turns ih =>
    simp only [MyFsck.markAllPointers,Option.bind_eq_bind,Option.bind_eq_some_iff] at hb
    obtain ⟨_,_,bm₁,h₁,h₂⟩ := hb
    exact ih (h.mark h₁) h₂

/-- The image is `img`, and the array a marking. -/
def Marking (n : ℕ) (img : Buf) (bm : Buf) (d : Device) : Prop := d.image = img ∧ Marks n bm

variable {g : Globals} {img : Buf}

theorem inBounds_marking {o : Option Buf} (h : Marks n bm → ∀ bm', o = some bm' → Marks n bm') :
    Triple (Marking n img bm) (inBounds o) (Marking n img) (fun d => d.image = img) :=
  inBounds_triple (fun bm' hb _ hd => ⟨hd.1,h hd.2 bm' hb⟩) fun _ hd => hd.1

theorem ReadOnly.marking {α : Type} {x : Fsck α} {f : α → Fsck Buf} (hx : ReadOnly x)
    (hf : ∀ a, Triple (Marking n img bm) (f a) (Marking n img) (fun d => d.image = img)) :
    Triple (Marking n img bm) (x >>= f) (Marking n img) (fun d => d.image = img) :=
  (hx.triple fun _ hd => hd.1).bind hf

theorem markSecondLevel_marking (p : Buf) (file_block_num turns i k : ℕ) :
    Triple (Marking n img bm) (markSecondLevel g p file_block_num turns i k bm) (Marking n img)
      (fun d => d.image = img) := by
  induction turns generalizing i k bm with
  | zero => exact .pure fun _ hd => hd
  | succ turns ih =>
    rw [markSecondLevel]
    refine ReadOnly.marking (inBounds_readOnly _) fun _ => ?_
    refine (inBounds_marking fun h _ => h.mark).bind fun bm₁ => ?_
    refine ReadOnly.marking (block_readOnly g _) fun p₂ => ?_
    refine (inBounds_triple (Q := fun r d => Marking n img r.1 d)
      (fun r hr _ hd => ⟨hd.1,hd.2.markPointers hr⟩) fun _ hd => hd.1).bind fun r => ?_
    exact .ite (fun _ => .pure fun _ hd => hd) fun _ => ih _ _

theorem getFileBlockBitmap_marking (inode : Inode) :
    Triple (Marking n img bm) (getFileBlockBitmap g bm inode) (Marking n img)
      (fun d => d.image = img) := by
  unfold getFileBlockBitmap
  dsimp only
  refine .ite (fun _ => inBounds_marking fun h _ => h.markAll) fun _ => .ite (fun _ => ?_) fun _ =>
    .ite (fun _ => ?_) fun _ => ?_
  · unfold getFileIndirectBlockBitmap
    refine (inBounds_marking fun h _ => h.markAll).bind fun _ => ?_
    refine (inBounds_marking fun h _ => h.mark).bind fun _ => ?_
    refine ReadOnly.marking (block_readOnly g _) fun _ => ?_
    refine (inBounds_triple (Q := fun r d => Marking n img r.1 d)
      (fun r hr _ hd => ⟨hd.1,hd.2.markPointers hr⟩) fun _ hd => hd.1).bind fun r => ?_
    exact .pure fun _ hd => hd
  · unfold getFileDoubleIndirectBlockBitmap
    refine (inBounds_marking fun h _ => h.markAll).bind fun _ => ?_
    refine (inBounds_marking fun h _ => h.mark).bind fun _ => ?_
    refine ReadOnly.marking (block_readOnly g _) fun _ => ?_
    refine (inBounds_marking fun h _ => h.markAllPointers).bind fun _ => ?_
    refine (inBounds_marking fun h _ => h.mark).bind fun _ => ?_
    refine ReadOnly.marking (block_readOnly g _) fun _ => ?_
    exact markSecondLevel_marking _ _ _ _ _
  · intro d hd
    exact hd

theorem getTrueBlockBitmap_marking (fuel i : ℕ) :
    Triple (Marking n img bm) (getTrueBlockBitmap g fuel bm i) (Marking n img)
      (fun d => d.image = img) := by
  induction fuel generalizing bm i with
  | zero => exact .throw fun _ hd => hd.1
  | succ fuel ih =>
    rw [getTrueBlockBitmap]
    refine ReadOnly.marking (readInode_readOnly g i) fun inode => ?_
    refine .ite (fun _ => .pure fun _ hd => hd) fun _ => .ite (fun _ => getFileBlockBitmap_marking _)
      fun _ => ?_
    refine forBlocks_triple (fun i b s => ?_) _ _ _
    refine (inBounds_marking fun h _ => h.mark).bind fun bm₁ => ?_
    refine ReadOnly.marking (block_readOnly g _) fun blk => ?_
    refine scanEntries_triple (fun count _ e s => ?_) (fun _ _ hd => hd.1) _ _ _ _
    exact .ite (fun _ => ih _) fun _ => .pure fun _ hd => hd

end Marks

section Pass4

variable {g : Globals} {I : Device → Prop}

theorem markSecondLevel_readOnly (p : Buf) (file_block_num turns i k : ℕ) (bm : Buf) :
    ReadOnly (markSecondLevel g p file_block_num turns i k bm) := by
  induction turns generalizing i k bm with
  | zero => exact .pure _
  | succ turns ih =>
    refine (inBounds_readOnly _).bind fun _ => (inBounds_readOnly _).bind fun _ =>
      (block_readOnly g _).bind fun _ => (inBounds_readOnly _).bind fun r => ?_
    obtain ⟨bm,k,returned⟩ := r
    cases returned with
    | true => exact .pure _
    | false => exact ih _ _ _

section Print

variable (hp : ∀ e, Triple I (print e) (fun _ => I) I)

include hp

theorem getFileBlockBitmap_keeps (bm : Buf) (inode : Inode) :
    Triple I (getFileBlockBitmap g bm inode) (fun _ => I) I := by
  unfold getFileBlockBitmap
  refine .ite (fun _ => (inBounds_readOnly _).keeps) fun _ => .ite (fun _ => ?_) fun _ =>
    .ite (fun _ => ?_) fun _ => (hp _).bind fun _ => (ReadOnly.pure _).keeps
  · exact ((inBounds_readOnly _).bind fun _ => (inBounds_readOnly _).bind fun _ =>
      (block_readOnly g _).bind fun _ => (inBounds_readOnly _).bind fun _ => .pure _).keeps
  · exact ((inBounds_readOnly _).bind fun _ => (inBounds_readOnly _).bind fun _ =>
      (block_readOnly g _).bind fun _ => (inBounds_readOnly _).bind fun _ =>
        (inBounds_readOnly _).bind fun _ => (block_readOnly g _).bind fun _ =>
          markSecondLevel_readOnly _ _ _ _ _ _).keeps

theorem getTrueBlockBitmap_keeps (fuel : ℕ) (bm : Buf) (x : ℕ) :
    Triple I (getTrueBlockBitmap g fuel bm x) (fun _ => I) I := by
  induction fuel generalizing bm x with
  | zero => exact (ReadOnly.throw _).keeps
  | succ fuel ih =>
    rw [getTrueBlockBitmap]
    refine (readInode_readOnly g x).keeps.bind fun inode => .ite (fun _ => (ReadOnly.pure _).keeps)
      fun _ => .ite (fun _ => getFileBlockBitmap_keeps hp _ _) fun _ => ?_
    refine forBlocks_triple (I := fun _ => I) (fun i b bm => ?_) _ _ _
    refine (inBounds_readOnly _).keeps.bind fun _ => (block_readOnly g _).keeps.bind fun _ => ?_
    refine scanEntries_triple (I := fun _ => I) (fun count _ e bm => ?_) (fun _ _ h => h) _ _ _ _
    exact .ite (fun _ => ih _ _) fun _ => (ReadOnly.pure _).keeps

theorem checkBit_keeps (bitmap : Buf) (found_error : Bool) (block_id : ℕ)
    (should_be alloc_bit : Byte) :
    Triple I (checkBit bitmap found_error block_id should_be alloc_bit) (fun _ => I) I :=
  .ite (fun _ => (hp _).bind fun _ => (inBounds_readOnly _).keeps.bind fun _ =>
    (ReadOnly.pure _).keeps) fun _ => (ReadOnly.pure _).keeps

theorem checkGroup_keeps (true_bitmap : Buf) (turns block_id : ℕ) (s : Buf × Bool) :
    Triple I (checkGroup g true_bitmap turns block_id s) (fun _ => I) I := by
  induction turns generalizing block_id s with
  | zero => exact (ReadOnly.pure _).keeps
  | succ turns ih =>
    refine (inBounds_readOnly _).keeps.bind fun _ => (inBounds_readOnly _).keeps.bind fun _ => ?_
    refine (checkBit_keeps hp _ _ _ _ _).bind fun s => ?_
    exact .ite (fun _ => (ReadOnly.pure _).keeps) fun _ => ih _ _

theorem checkGroups_keeps (true_bitmap : Buf) (groups block_id : ℕ) (s : Buf × Bool) :
    Triple I (checkGroups g true_bitmap groups block_id s) (fun _ => I) I := by
  induction groups generalizing block_id s with
  | zero => exact (ReadOnly.pure _).keeps
  | succ groups ih => exact (checkGroup_keeps hp _ _ _ _).bind fun r => ih _ _

theorem checkInodeTables_keeps (s : Buf × Bool) :
    Triple I (checkInodeTables g s) (fun _ => I) I :=
  .foldlM _ (fun _ _ _ => (readGroupDesc_readOnly g _).keeps.bind fun _ =>
    .foldlM _ (fun _ _ _ => (inBounds_readOnly _).keeps.bind fun _ => checkBit_keeps hp _ _ _ _ _) _) _

end Print

theorem writeBlockBitmapInPartition_keeps (hI : Lasting g I) (bitmap : Buf) :
    Triple I (g.writeBlockBitmapInPartition bitmap) (fun _ => I) I :=
  .foldlM _ (fun _ _ _ => (readGroupDesc_readOnly g _).keeps.bind fun _ =>
    .foldlM _ (fun _ _ _ => hI.write _ _ _) ()) ()

theorem pass4_keeps (hI : Lasting g I) (fuel : ℕ) : Triple I (pass4 g fuel) (fun _ => I) I := by
  refine (checkDivisor_readOnly _).keeps.bind fun _ =>
    (getBlockBitmapInPartition_readOnly g).keeps.bind fun bitmap =>
    (getTrueBlockBitmap_keeps hI.print _ _ _).bind fun true_bitmap =>
      (checkGroups_keeps hI.print _ _ _ _).bind fun s => (checkInodeTables_keeps hI.print s).bind fun s => ?_
  exact .ite (fun _ => writeBlockBitmapInPartition_keeps hI _) fun _ => (ReadOnly.pure _).keeps

end Pass4

end MyFsck
