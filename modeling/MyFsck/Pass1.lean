import MyFsck.Walks
import MyFsck.Frames

/-! What `pass1` does with the blocks of an inode it is called on. Its test for a directory never
fires, so that every inode is gone through, whatever its mode. -/
namespace MyFsck

open ByteBuffer ErrorState

theorem notInodeIsDir_false (inode : Inode) : notInodeIsDir inode = false := by
  unfold notInodeIsDir lnot
  split <;> decide

/-- The entries a scan meets up to its end or its first fault, and whether it ends well. -/
def metFrom (block_size : ℕ) (b : Buf) : (turns off : ℕ) → List DirEntry × Bool
  | 0, off => ([],decide (block_size ≤ off))
  | turns+1, off =>
    if off < block_size then
      match readDirEntryInBlock b off with
      | none => ([],false)
      | some none => ([],true)
      | some (some e) =>
        let r := metFrom block_size b turns (off+e.recLen)
        (e::r.1,r.2)
    else ([],true)

/-- What `pass1` finds right in directory `x` with parent `p`: any entry that is not of type
directory, and the numbers `x` and `p` in the first two. -/
def RightAt (p x count : ℕ) (e : DirEntry) : Prop :=
  dirIsDir e = true → (count = 0 ∧ e.inode = x) ∨ (count = 1 ∧ e.inode = p)

instance (p x count : ℕ) (e : DirEntry) : Decidable (RightAt p x count e) :=
  inferInstanceAs (Decidable (_ → _))

/-- Every entry is right at its place, the first one standing at `count`. -/
def AllRight (p x : ℕ) : ℕ → List DirEntry → Prop
  | _, [] => True
  | count, e::es => RightAt p x count e ∧ AllRight p x (count+1) es

/-- The blocks that are scanned when each is found right: those in front of the first pointer that
is 0, up to the first that cannot be read or scanned to its end. -/
def Globals.metBlocks (g : Globals) (d : Device) : List ℕ → List Buf
  | [] => []
  | b::bs =>
    if b = 0 then []
    else
      match (g.block b).run d with
      | .ok blk _ => blk :: if (metFrom g.blockSize blk g.blockSize 0).2 then g.metBlocks d bs else []
      | .error _ _ => []

section Quiet

variable {g : Globals} {p x : ℕ}

theorem pass1Entry_right {count : ℕ} {e : DirEntry} (h : RightAt p x count e)
    (visit : ℕ → ℕ → Fsck Unit) (block_id off : ℕ) (b : Buf) :
    pass1Entry g visit block_id p x count off e b = pure b := by
  unfold pass1Entry
  split
  · rename_i hd
    rcases h hd with ⟨rfl,he⟩ | ⟨rfl,he⟩
    · simp [he]
    · simp [he]
  · rfl

theorem pass1Corrector_keepsLog (b : Buf) (block_id off v : ℕ) :
    KeepsLog (pass1Corrector g b block_id off v) :=
  (KeepsLog.of_readOnly (inBounds_readOnly _)).bind fun _ =>
    (KeepsLog.write g _ _ _).bind fun _ => .of_readOnly (.pure _)

/-- Calls of itself that print a line. -/
def shout (_ _ : ℕ) : Fsck Unit := print .tooLarge

theorem pass1Entry_wrong {count : ℕ} {e : DirEntry} (h : ¬ RightAt p x count e) (block_id off : ℕ)
    (b : Buf) : ∃ ev rest, pass1Entry g shout block_id p x count off e b = print ev >>= rest ∧
      ∀ u, KeepsLog (rest u) := by
  unfold RightAt at h
  simp only [Classical.not_imp,not_or,not_and] at h
  obtain ⟨hd,h₀,h₁⟩ := h
  unfold pass1Entry
  rw [if_pos hd]
  by_cases hc₀ : count = 0
  · rw [if_pos hc₀,if_pos (h₀ hc₀)]
    exact ⟨_,_,rfl,fun _ => pass1Corrector_keepsLog _ _ _ _⟩
  · by_cases hc₁ : count = 1
    · rw [if_neg hc₀,if_pos hc₁,if_pos (h₁ hc₁)]
      exact ⟨_,_,rfl,fun _ => pass1Corrector_keepsLog _ _ _ _⟩
    · rw [if_neg hc₀,if_neg hc₁]
      exact ⟨_,_,rfl,fun _ => .of_readOnly (.pure _)⟩

theorem pass1Entry_keeps {I : Device → Prop} (hI : Lasting g I) {visit : ℕ → ℕ → Fsck Unit}
    (hv : ∀ p x, Triple I (visit p x) (fun _ => I) I) (block_id count off : ℕ) (e : DirEntry) (b : Buf) :
    Triple I (pass1Entry g visit block_id p x count off e b) (fun _ => I) I := by
  have hfix : ∀ ev v, Triple I (print ev >>= fun _ => pass1Corrector g b block_id off v)
      (fun _ => I) I := fun ev v =>
    (hI.print ev).bind fun _ => (inBounds_readOnly _).keeps.bind fun _ => (hI.write _ _ _).bind fun _ =>
      (ReadOnly.pure _).keeps
  have hsame : Triple I (pure b : Fsck Buf) (fun _ => I) I := (ReadOnly.pure b).keeps
  unfold pass1Entry
  exact .ite (fun _ => .ite (fun _ => .ite (fun _ => hfix _ _) fun _ => hsame) fun _ =>
    .ite (fun _ => .ite (fun _ => hfix _ _) fun _ => hsame) fun _ => (hv _ _).bind fun _ => hsame)
      fun _ => hsame

theorem pass1Block_keeps {I : Device → Prop} (hI : Lasting g I) {visit : ℕ → ℕ → Fsck Unit}
    (hv : ∀ p x, Triple I (visit p x) (fun _ => I) I) (i block_id : ℕ) (u : Unit) :
    Triple I (pass1Block g visit p x i block_id u) (fun _ => I) I :=
  (block_readOnly g block_id).keeps.bind fun _ =>
    (scanEntries_triple (I := fun _ => I) (pass1Entry_keeps hI hv block_id) (fun _ _ h => h) _ _ _ _).bind
      fun _ => (ReadOnly.pure _).keeps

theorem pass1_keeps {I : Device → Prop} (hI : Lasting g I) (fuel p x : ℕ) :
    Triple I (pass1 g fuel p x) (fun _ => I) I := by
  induction fuel generalizing p x with
  | zero => exact (ReadOnly.throw _).keeps
  | succ fuel ih =>
    rw [pass1_succ]
    refine (readInode_readOnly g x).keeps.bind fun inode => .ite (fun _ => (ReadOnly.pure _).keeps) fun _ => ?_
    exact (ReadOnly.pure _).keeps.bind fun _ =>
      forBlocks_triple (I := fun _ => I) (pass1Block_keeps hI ih) _ _ _

theorem pass1Entry_keepsLog {visit : ℕ → ℕ → Fsck Unit} (hv : ∀ p x, KeepsLog (visit p x))
    (block_id count off : ℕ) (e : DirEntry) (b : Buf) :
    KeepsLog (pass1Entry g visit block_id p x count off e b) := fun log =>
  pass1Entry_keeps (lasting_log g log) (fun p x => hv p x log) block_id count off e b

theorem pass1Block_keepsLog {visit : ℕ → ℕ → Fsck Unit} (hv : ∀ p x, KeepsLog (visit p x))
    (i block_id : ℕ) (u : Unit) : KeepsLog (pass1Block g visit p x i block_id u) := fun log =>
  pass1Block_keeps (lasting_log g log) (fun p x => hv p x log) i block_id u

theorem shout_keepsLog (p x : ℕ) : KeepsLog (shout p x) := .print _

theorem scan_allRight (visit : ℕ → ℕ → Fsck Unit) (block_id : ℕ) {n turns off count : ℕ} {b : Buf}
    (h : AllRight p x count (metFrom n b turns off).1) (d : Device) :
    if (metFrom n b turns off).2 then
      (scanEntries n id (pass1Entry g visit block_id p x) turns off count b).run d = .ok b d
    else ∃ e, (scanEntries n id (pass1Entry g visit block_id p x) turns off count b).run d =
      .error e d := by
  induction turns generalizing off count with
  | zero =>
    rw [scanEntries]
    by_cases hoff : off < n
    · simp [metFrom,hoff]
    · simp [metFrom,hoff,Nat.not_lt.mp hoff]
  | succ turns ih =>
    rw [scanEntries]
    rw [metFrom] at h ⊢
    by_cases hoff : off < n
    · rw [if_pos hoff] at h ⊢
      rw [if_pos hoff]
      cases hr : readDirEntryInBlock b off with
      | none => simp [hr]
      | some r =>
        rw [hr] at h
        cases r with
        | none => simp [hr]
        | some e =>
          have hrun := ih h.2
          simp only [id,hr]
          rw [bind_ok (inBounds_some _ d)]
          dsimp only
          rw [pass1Entry_right h.1,pure_bind]
          exact hrun
    · simp [hoff]

theorem scan_wrong (block_id : ℕ) {n turns off count : ℕ} {b : Buf}
    (h : ¬ AllRight p x count (metFrom n b turns off).1) (d : Device) :
    ∃ ev, d.out ++ [ev] <+:
      (endState (scanEntries n id (pass1Entry g shout block_id p x) turns off count b) d).out := by
  induction turns generalizing off count with
  | zero => exact absurd trivial h
  | succ turns ih =>
    rw [metFrom] at h
    by_cases hoff : off < n
    · rw [if_pos hoff] at h
      cases hr : readDirEntryInBlock b off with
      | none =>
        rw [hr] at h
        exact absurd trivial h
      | some r =>
        rw [hr] at h
        cases r with
        | none => exact absurd trivial h
        | some e =>
          rw [scanEntries,if_pos hoff]
          simp only [id,hr]
          rw [endState_bind (inBounds_some _ d)]
          dsimp only
          by_cases he : RightAt p x count e
          · rw [pass1Entry_right he,pure_bind]
            exact ih fun hall => h ⟨he,hall⟩
          · obtain ⟨ev,rest,hrest,hk⟩ := @pass1Entry_wrong g p x count e he block_id off b
            rw [hrest,bind_assoc,endState_bind (print_run ev d)]
            exact ⟨ev,((hk ()).bind fun b => scanEntries_keepsLog
              (pass1Entry_keepsLog shout_keepsLog block_id) turns _ _ b).endState (List.prefix_refl _)⟩
    · rw [if_neg hoff] at h
      exact absurd trivial h

theorem blocks_allRight (visit : ℕ → ℕ → Fsck Unit) {d : Device} {i : ℕ} {bs : List ℕ}
    (h : ∀ blk ∈ g.metBlocks d bs, AllRight p x 0 (metFrom g.blockSize blk g.blockSize 0).1) :
    endState (forBlocks (pass1Block g visit p x) i bs ()) d = d := by
  induction bs generalizing i with
  | nil => rfl
  | cons b bs ih =>
    rw [forBlocks]
    rw [Globals.metBlocks] at h
    by_cases hb : b = 0
    · rw [if_pos hb]
      rfl
    · rw [if_neg hb] at h ⊢
      rcases block_readOnly g b d with ⟨blk,hr⟩ | ⟨e,hr⟩
      · rw [hr] at h
        have hscan := scan_allRight (g := g) visit b (h blk (by simp)) d
        dsimp only at h
        cases hend : (metFrom g.blockSize blk g.blockSize 0).2 with
        | true =>
          rw [hend,if_pos rfl] at hscan
          rw [hend,if_pos rfl] at h
          rw [pass1Block,bind_assoc,endState_bind hr,bind_assoc,endState_bind hscan,pure_bind]
          exact ih fun blk' hblk' => h blk' (by simp [hblk'])
        | false =>
          rw [hend,if_neg (by simp)] at hscan
          obtain ⟨e,he⟩ := hscan
          rw [pass1Block,bind_assoc,endState_bind hr,bind_assoc]
          exact endState_error (bind_error he)
      · rw [pass1Block,bind_assoc]
        exact endState_error (bind_error hr)

theorem blocks_wrong {d : Device} {i : ℕ} {bs : List ℕ}
    (h : ¬ ∀ blk ∈ g.metBlocks d bs, AllRight p x 0 (metFrom g.blockSize blk g.blockSize 0).1) :
    ∃ ev, d.out ++ [ev] <+: (endState (forBlocks (pass1Block g shout p x) i bs ()) d).out := by
  induction bs generalizing i with
  | nil => exact absurd (by simp [Globals.metBlocks]) h
  | cons b bs ih =>
    rw [forBlocks]
    rw [Globals.metBlocks] at h
    by_cases hb : b = 0
    · rw [if_pos hb] at h
      exact absurd (by simp) h
    · rw [if_neg hb] at h ⊢
      rcases block_readOnly g b d with ⟨blk,hr⟩ | ⟨e,hr⟩
      · rw [hr] at h
        dsimp only at h
        rw [pass1Block,bind_assoc,endState_bind hr,bind_assoc]
        by_cases hall : AllRight p x 0 (metFrom g.blockSize blk g.blockSize 0).1
        · have hscan := scan_allRight (g := g) shout b hall d
          cases hend : (metFrom g.blockSize blk g.blockSize 0).2 with
          | true =>
            rw [hend,if_pos rfl] at hscan
            rw [hend,if_pos rfl] at h
            rw [endState_bind hscan,pure_bind]
            exact ih fun hrest => h fun blk' hblk' => by
              rcases List.mem_cons.mp hblk' with rfl | hblk'
              · exact hall
              · exact hrest blk' hblk'
          | false =>
            rw [hend] at h
            exact absurd (by simpa using hall) h
        · obtain ⟨ev,hev⟩ := @scan_wrong g p x b g.blockSize g.blockSize 0 0 blk hall d
          exact ⟨ev,endState_bind_log (fun _ => (KeepsLog.of_readOnly (.pure ())).bind fun _ =>
            forBlocks_keepsLog (pass1Block_keepsLog shout_keepsLog) _ _ _) hev⟩
      · rw [hr] at h
        exact absurd (by simp) h

/-- A call of `pass1` writes nothing and makes no call of itself exactly when every entry it meets is
right; the mode of the inode plays no part in it. -/
theorem pass1_quiet_iff (g : Globals) (d : Device) (p x : ℕ) :
    (∀ visit, endState (pass1Call g silent visit p x) d = d) ↔
      ∀ inode, (g.readInode x).run d = .ok inode d → ∀ blk ∈ g.metBlocks d inode.iBlock,
        AllRight p x 0 (metFrom g.blockSize blk g.blockSize 0).1 := by
  rcases readInode_readOnly g x d with ⟨inode,hr⟩ | ⟨e,hr⟩
  · have hcall : ∀ visit, endState (pass1Call g silent visit p x) d =
        endState (forBlocks (pass1Block g visit p x) 0 inode.iBlock ()) d := by
      intro visit
      unfold pass1Call
      rw [endState_bind hr,notInodeIsDir_false,if_neg (by simp)]
      rfl
    constructor
    · intro h inode' hr'
      obtain rfl := (EStateM.Result.ok.inj (hr.symm.trans hr')).1
      by_contra hwrong
      obtain ⟨ev,hev⟩ := @blocks_wrong g p x d 0 inode.iBlock hwrong
      rw [← hcall,h] at hev
      exact absurd hev.length_le (by simp)
    · intro h visit
      rw [hcall]
      exact blocks_allRight visit (h inode hr)
  · refine iff_of_true (fun visit => ?_) fun inode hr' => ?_
    · exact endState_error (bind_error hr)
    · rw [hr] at hr'
      cases hr'

end Quiet

/-- The root (inode 2, block 7) names the regular file 11 with the type byte of a directory; the
bytes of the file (block 8) begin like an entry of type directory for inode 5. -/
def mistypedImage : Buf := exampleImage 16 [
  inodePiece 2 (inodeBytes 0x4000 1024 2 [7]),
  inodePiece 11 (inodeBytes 0x8000 1024 1 [8]),
  blockPiece 7 0 (entryBytes 2 12 2 [46,0,0,0] ++ entryBytes 2 12 2 [46,46,0,0] ++
    entryBytes 11 1000 2 [102]),
  blockPiece 8 0 (entryBytes 5 1024 2 [120])]

/-- The call on the file writes to the file's block, and it is made in the run from the root. -/
theorem pass1_writes_file :
    inodeIsDir ((exampleGlobals 16).inodeAt mistypedImage 11) = false ∧
    (∃ u d', (pass1 (exampleGlobals 16) 1 2 11).run ⟨mistypedImage,[]⟩ = .ok u d' ∧
      decide (Event.writeBlock 8 ∈ d'.out ∧ d'.image.byte (512+1024*8) = 11) = true) ∧
    ∃ u d', (pass1 (exampleGlobals 16) 2 rootInodeNum rootInodeNum).run ⟨mistypedImage,[]⟩ = .ok u d' ∧
      decide (Event.writeBlock 8 ∈ d'.out ∧ d'.image.byte (512+1024*8) = 11) = true :=
  ⟨by decide +kernel,exists_of_endsIn (by decide +kernel),exists_of_endsIn (by decide +kernel)⟩

end MyFsck
